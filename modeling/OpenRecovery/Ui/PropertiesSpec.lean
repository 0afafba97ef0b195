import OpenRecovery.Storage.LastWriter
import OpenRecovery.Ui.PropertyLines

/-!
# The settings of a property file

Each setting has the value of the last line that is meant for it (`meant`), unless a line is misread
(`Misread`): a colour with a character between `9` and `A` among its digits, a terminal colour whose
number is written in another way, an integer whose key only begins with the name or has spaces
before the equals sign. The lines from the first NUL on are not read at all. `takesEffect_iff` says
exactly when this makes a difference.
-/

set_option autoImplicit false

namespace OpenRecovery.Ui

open OpenRecovery.Storage OpenRecovery.Updater

/-! ## Settings and values -/

inductive Setting where
  | color (name : ColorName)
  | term (bright : Bool) (i : Fin 8)
  | int (name : IntName)
  deriving DecidableEq

inductive Value where
  | color (c : Color)
  | int (i : ℤ)
  deriving DecidableEq

/-- The number of a terminal colour. -/
def termNumber (bright : Bool) (i : Fin 8) : ℤ := (if bright then 90 else 30) + i

/-- Its place in `console_term_colors`. -/
def termPlace (bright : Bool) (i : Fin 8) : ℕ := (if bright then 8 else 0) + i

/-- The key of a setting. -/
def Setting.prop : Setting → Bytes
  | color name => name.prop
  | term bright i => termclrBase ++ [if bright then 57 else 51, 48 + UInt8.ofNat i]
  | int name => name.prop

def UiProperties.get (s : UiProperties) : Setting → Value
  | .color name => .color (s.colors name)
  | .term bright i => .color (s.termColors (termPlace bright i))
  | .int name => .int (s.ints name)

/-- An uppercase hexadecimal digit. -/
def hexDigit (c : UInt8) : Option UInt8 :=
  if 48 ≤ c ∧ c ≤ 57 then some (c - 48)
  else if 65 ≤ c ∧ c ≤ 70 then some (c - 65 + 10)
  else none

def hexByte : Bytes → Option UInt8
  | c :: d :: _ => do
      let high ← hexDigit c
      let low ← hexDigit d
      return high * 16 + low
  | _ => none

/-- A hash and eight digits at the beginning of a value. -/
def hexColor (text : Bytes) : Option Color :=
  if text.head? = some 35 then do
    let r ← hexByte (text.drop 1)
    let g ← hexByte (text.drop 3)
    let b ← hexByte (text.drop 5)
    let a ← hexByte (text.drop 7)
    return ⟨r, g, b, a⟩
  else none

/-! ## What a line is meant for, and what it is taken for -/

/-- The value of a setting that is written as `text`. -/
def Setting.value : Setting → Bytes → Option Value
  | color _, text => (hexColor text).map Value.color
  | term _ _, text => (hexColor text).map Value.color
  | int _, text => some (.int (atoi text))

/-- The value that a line is meant to give to a setting. -/
def meant (σ : Setting) (line : Bytes) : Option Value :=
  if IsProperty line ∧ lineKey line = σ.prop then σ.value (valueOf line) else none

/-- The value that a line gives to a setting. -/
def taken (σ : Setting) (line : Bytes) : Option Value :=
  if IsProperty line then
    match σ with
    | .color name => if lineKey line = name.prop then (htoc (valueOf line)).map Value.color else none
    | .term bright i =>
        if termclrBase <+: lineKey line ∧
            atoi ((lineKey line).drop termclrBase.length) = termNumber bright i then
          (htoc (valueOf line)).map Value.color
        else none
    | .int name => if name.prop <+: lineKey line then some (.int (readInt name line)) else none
  else none

/-- A colour that `htoc` takes although not all of its digits are hexadecimal. -/
def IsLoose (value : Bytes) : Prop := htoc value ≠ none ∧ hexColor value = none

/-- The lines that are misread for a setting. -/
def Misread (σ : Setting) (line : Bytes) : Prop :=
  IsProperty line ∧
    match σ with
    | .color name => lineKey line = name.prop ∧ IsLoose (valueOf line)
    | .term bright i =>
        termclrBase <+: lineKey line ∧
          atoi ((lineKey line).drop termclrBase.length) = termNumber bright i ∧
          (IsLoose (valueOf line) ∨
            lineKey line ≠ (Setting.term bright i).prop ∧ htoc (valueOf line) ≠ none)
    | .int name =>
        name.prop <+: lineKey line ∧
          (lineKey line ≠ name.prop ∨ IsSpaced line ∧ atoi (valueOf line) ≠ 0)

section Digits

/-- `read_byte_hex` reads the hexadecimal digits as they are meant. -/
theorem readDigit_of_hexDigit {c d : UInt8} (h : hexDigit c = some d) : readDigit c = some d := by
  rw [hexDigit] at h
  simp only [UInt8.le_iff_toNat_le] at h
  split at h
  · next hrange =>
      -- a decimal digit
      cases h
      have hle : (48 : UInt8) ≤ c := UInt8.le_iff_toNat_le.mpr hrange.1
      have hsub := UInt8.toNat_sub_of_le c 48 hle
      have h57 : (57 : UInt8).toNat = 57 := rfl
      have h48 : (48 : UInt8).toNat = 48 := rfl
      have h9 : (9 : UInt8).toNat = 9 := rfl
      rw [readDigit]
      simp only [UInt8.lt_iff_toNat_lt, hsub]
      rw [if_neg (by omega), if_neg (by omega)]
  · split at h
    · -- an uppercase letter
      next hrange =>
        cases h
        have hle : (65 : UInt8) ≤ c := UInt8.le_iff_toNat_le.mpr hrange.1
        have hsub := UInt8.toNat_sub_of_le c 65 hle
        have hadd := UInt8.toNat_add (c - 65) 10
        have h57 : (57 : UInt8).toNat = 57 := rfl
        have h65 : (65 : UInt8).toNat = 65 := rfl
        have h70 : (70 : UInt8).toNat = 70 := rfl
        have h10 : (10 : UInt8).toNat = 10 := rfl
        have h15 : (15 : UInt8).toNat = 15 := rfl
        rw [readDigit]
        simp only [UInt8.lt_iff_toNat_lt, hadd, hsub]
        rw [if_pos (by omega), if_neg (by omega)]
    · cases h

theorem readByteHex_of_hexByte {text : Bytes} {d : UInt8} (h : hexByte text = some d) :
    readByteHex text = some d := by
  match text, h with
  | c :: c' :: _, h =>
      obtain ⟨high, hhigh, h⟩ := Option.bind_eq_some_iff.mp h
      obtain ⟨low, hlow, h⟩ := Option.bind_eq_some_iff.mp h
      rw [readByteHex, readDigit_of_hexDigit hhigh, readDigit_of_hexDigit hlow]
      exact h

theorem length_of_hexByte {text : Bytes} {d : UInt8} (h : hexByte text = some d) :
    2 ≤ text.length := by
  match text, h with
  | _ :: _ :: _, _ => simp

/-- A colour that is meant is taken as it is meant. -/
theorem htoc_of_hexColor {value : Bytes} {c : Color} (h : hexColor value = some c) :
    htoc value = some c := by
  rw [hexColor] at h
  split at h
  · next hhead =>
      obtain ⟨r, hr, h⟩ := Option.bind_eq_some_iff.mp h
      obtain ⟨g, hg, h⟩ := Option.bind_eq_some_iff.mp h
      obtain ⟨b, hb, h⟩ := Option.bind_eq_some_iff.mp h
      obtain ⟨a, ha, h⟩ := Option.bind_eq_some_iff.mp h
      have hlen := length_of_hexByte ha
      rw [List.length_drop] at hlen
      rw [htoc, if_neg (by omega), if_neg (not_not.mpr hhead), readByteHex_of_hexByte hr,
        readByteHex_of_hexByte hg, readByteHex_of_hexByte hb, readByteHex_of_hexByte ha]
      exact h
  · cases h

theorem htoc_eq_hexColor {value : Bytes} (h : ¬ IsLoose value) : htoc value = hexColor value := by
  cases hhex : hexColor value with
  | none => exact not_not.mp fun hne => h ⟨hne, hhex⟩
  | some c => exact htoc_of_hexColor hhex

end Digits

/-! ## Keys -/

theorem colorName_mem_all (name : ColorName) : name ∈ ColorName.all := by
  cases name <;> decide

theorem intName_mem_all (name : IntName) : name ∈ IntName.all := by
  cases name <;> decide

theorem find?_color_eq_some {key : Bytes} {name : ColorName} :
    (ColorName.all.find? fun name => name.prop = key) = some name ↔ key = name.prop := by
  constructor
  · intro h
    have hname := List.find?_some (p := fun name : ColorName => decide (name.prop = key)) h
    exact (of_decide_eq_true hname).symm
  · rintro rfl
    cases name <;> decide

theorem find?_color_eq_none {key : Bytes} :
    (ColorName.all.find? fun name => name.prop = key) = none ↔ ∀ name : ColorName, key ≠ name.prop := by
  rw [List.find?_eq_none]
  constructor
  · intro h name hkey
    exact h name (colorName_mem_all name) (decide_eq_true hkey.symm)
  · intro h name _ hkey
    exact h name (of_decide_eq_true hkey).symm

/-- No name of an integer begins another one. -/
theorem intName_eq_of_begins {name name' : IntName} {key : Bytes} (h : name.prop <+: key)
    (h' : name'.prop <+: key) : name = name' := by
  have hprops : ∀ n m : IntName, n.prop <+: m.prop → n = m := by
    intro n m
    cases n <;> cases m <;> decide
  -- one of the two begins the other
  rcases List.prefix_or_prefix_of_prefix h h' with hle | hle
  · exact hprops name name' hle
  · exact (hprops name' name hle).symm

theorem find?_int_eq_some {key : Bytes} {name : IntName} :
    (IntName.all.find? fun name => name.prop.isPrefixOf key) = some name ↔ name.prop <+: key := by
  constructor
  · intro h
    exact List.isPrefixOf_iff_prefix.mp
      (List.find?_some (p := fun name : IntName => name.prop.isPrefixOf key) h)
  · intro h
    cases hfind : IntName.all.find? fun name => name.prop.isPrefixOf key with
    | none =>
        rw [List.find?_eq_none] at hfind
        exact absurd (List.isPrefixOf_iff_prefix.mpr h) (hfind name (intName_mem_all name))
    | some name' =>
        have h' := List.isPrefixOf_iff_prefix.mp
          (List.find?_some (p := fun name : IntName => name.prop.isPrefixOf key) hfind)
        rw [intName_eq_of_begins h' h]

/-- The three families of keys are apart. -/
theorem not_termclr_color (name : ColorName) : ¬ termclrBase <+: name.prop := by
  cases name <;> decide

theorem head?_of_begins {p key : Bytes} {c : UInt8} (h : p <+: key) (hp : p.head? = some c) :
    key.head? = some c := by
  obtain ⟨rest, rfl⟩ := h
  cases p with
  | nil => cases hp
  | cons d p => exact hp

theorem not_int_color {key : Bytes} (name : IntName) (h : key.head? = some 99) :
    ¬ name.prop <+: key := by
  intro hbegins
  have hhead : name.prop.head? = some 117 := by cases name <;> rfl
  rw [head?_of_begins hbegins hhead] at h
  cases h

theorem termIndex_eq_iff {val : ℤ} {bright : Bool} {i : Fin 8} :
    termIndex val = some (termPlace bright i) ↔ val = termNumber bright i := by
  have hi := i.isLt
  rw [termIndex, termPlace, termNumber]
  cases bright with
  | false =>
      simp only [Bool.false_eq_true, if_false]
      split_ifs <;> simp <;> omega
  | true =>
      simp only [if_true]
      split_ifs <;> simp <;> omega

/-! ## One line -/

section Line

variable {line : Bytes} {σ : Setting}

theorem get_setColor (s : UiProperties) (name : ColorName) (c : Color) (σ : Setting) :
    (s.setColor name c).get σ = if σ = .color name then .color c else s.get σ := by
  cases σ with
  | color name' =>
      by_cases h : name' = name
      · rw [h, if_pos rfl]
        exact congrArg Value.color (Function.update_self ..)
      · rw [if_neg fun h' => h (Setting.color.inj h')]
        exact congrArg Value.color (Function.update_of_ne h _ _)
  | term bright i => rfl
  | int name => rfl

theorem get_setInt (s : UiProperties) (name : IntName) (i : ℤ) (σ : Setting) :
    (s.setInt name i).get σ = if σ = .int name then .int i else s.get σ := by
  cases σ with
  | color name => rfl
  | term bright i => rfl
  | int name' =>
      by_cases h : name' = name
      · rw [h, if_pos rfl]
        exact congrArg Value.int (Function.update_self ..)
      · rw [if_neg fun h' => h (Setting.int.inj h')]
        exact congrArg Value.int (Function.update_of_ne h _ _)

/-- What becomes of the settings if a terminal colour is set. -/
theorem get_setTermColor (s : UiProperties) (val : ℤ) (c : Color) (σ : Setting) :
    UiProperties.get
        (match termIndex val with
          | some i => s.setTermColor i c
          | none => s) σ =
      if ∃ bright i, σ = .term bright i ∧ val = termNumber bright i then .color c else s.get σ := by
  cases σ with
  | color name =>
      rw [if_neg (by rintro ⟨_, _, ⟨⟩, _⟩)]
      cases termIndex val <;> rfl
  | int name =>
      rw [if_neg (by rintro ⟨_, _, ⟨⟩, _⟩)]
      cases termIndex val <;> rfl
  | term bright i =>
      have hiff : (∃ b j, Setting.term bright i = .term b j ∧ val = termNumber b j) ↔
          termIndex val = some (termPlace bright i) := by
        rw [termIndex_eq_iff]
        constructor
        · rintro ⟨_, _, ⟨⟩, h⟩
          exact h
        · intro h
          exact ⟨bright, i, rfl, h⟩
      rw [if_congr hiff rfl rfl]
      cases termIndex val with
      | none => rw [if_neg nofun]
      | some place =>
          show Value.color (Function.update s.termColors place c (termPlace bright i)) = _
          by_cases h : termPlace bright i = place
          · rw [h, Function.update_self, if_pos rfl]
          · rw [Function.update_of_ne h, if_neg fun h' => h (Option.some.inj h').symm]
            rfl

theorem taken_color (h : IsProperty line) (name : ColorName) :
    taken (.color name) line =
      if lineKey line = name.prop then (htoc (valueOf line)).map Value.color else none := by
  rw [taken, if_pos h]

theorem taken_term (h : IsProperty line) (bright : Bool) (i : Fin 8) :
    taken (.term bright i) line =
      if termclrBase <+: lineKey line ∧
          atoi ((lineKey line).drop termclrBase.length) = termNumber bright i then
        (htoc (valueOf line)).map Value.color
      else none := by
  rw [taken, if_pos h]

theorem taken_int (h : IsProperty line) (name : IntName) :
    taken (.int name) line =
      if name.prop <+: lineKey line then some (.int (readInt name line)) else none := by
  rw [taken, if_pos h]

/-- The key is the name of a colour. -/
theorem get_evaluateLine_color {name : ColorName} (h : IsProperty line)
    (hkey : lineKey line = name.prop) (s : UiProperties) :
    (evaluateLine line s).get σ = (taken σ line).getD (s.get σ) := by
  have htaken : taken σ line =
      if σ = .color name then (htoc (valueOf line)).map Value.color else none := by
    cases σ with
    | color name' =>
        rw [taken_color h]
        -- the key names one colour only
        refine if_congr ?_ rfl rfl
        constructor
        · intro hkey'
          -- the first name that matches is the only one
          have hfind := find?_color_eq_some.mpr hkey
          rw [find?_color_eq_some.mpr hkey', Option.some.injEq] at hfind
          rw [hfind]
        · rintro ⟨⟩
          exact hkey
    | term bright i =>
        rw [taken_term h]
        exact (if_neg fun h' => not_termclr_color name (hkey ▸ h'.1)).trans (if_neg nofun).symm
    | int name' =>
        have hhead : (lineKey line).head? = some 99 := by
          rw [hkey]
          cases name <;> rfl
        rw [taken_int h]
        exact (if_neg (not_int_color name' hhead)).trans (if_neg nofun).symm
  rw [evaluateLine, find?_color_eq_some.mpr hkey, htaken]
  cases htoc (valueOf line) with
  | none =>
      rw [Option.map_none, ite_self]
      rfl
  | some c =>
      show (s.setColor name c).get σ = _
      rw [get_setColor, Option.map_some]
      split
      · rfl
      · rfl

/-- The key begins with the name of the terminal colours. -/
theorem get_evaluateLine_term (h : IsProperty line) (hcolor : ∀ name : ColorName, lineKey line ≠ name.prop)
    (hkey : termclrBase <+: lineKey line) (s : UiProperties) :
    (evaluateLine line s).get σ = (taken σ line).getD (s.get σ) := by
  have htaken : taken σ line =
      if ∃ bright i, σ = .term bright i ∧
          atoi ((lineKey line).drop termclrBase.length) = termNumber bright i then
        (htoc (valueOf line)).map Value.color
      else none := by
    cases σ with
    | color name =>
        rw [taken_color h, if_neg (hcolor name), if_neg (by rintro ⟨_, _, ⟨⟩, _⟩)]
    | term bright i =>
        rw [taken_term h]
        refine if_congr ?_ rfl rfl
        constructor
        · intro hnumber
          exact ⟨bright, i, rfl, hnumber.2⟩
        · rintro ⟨_, _, ⟨⟩, hnumber⟩
          exact ⟨hkey, hnumber⟩
    | int name =>
        have hint : ¬ name.prop <+: lineKey line :=
          not_int_color name (head?_of_begins hkey (by decide))
        rw [taken_int h]
        exact (if_neg hint).trans (if_neg (by rintro ⟨_, _, ⟨⟩, _⟩)).symm
  rw [evaluateLine, find?_color_eq_none.mpr hcolor, htaken]
  simp only [List.isPrefixOf_iff_prefix.mpr hkey, if_true]
  cases htoc (valueOf line) with
  | none =>
      rw [Option.map_none, ite_self]
      rfl
  | some c =>
      rw [Option.map_some]
      refine (get_setTermColor s _ c σ).trans ?_
      split
      · rfl
      · rfl

/-- Every other key. -/
theorem get_evaluateLine_int (h : IsProperty line) (hcolor : ∀ name : ColorName, lineKey line ≠ name.prop)
    (hkey : ¬ termclrBase <+: lineKey line) (s : UiProperties) :
    (evaluateLine line s).get σ = (taken σ line).getD (s.get σ) := by
  -- neither of the first two families
  have hbase : ¬ termclrBase.isPrefixOf (lineKey line) = true := fun h' =>
    hkey (List.isPrefixOf_iff_prefix.mp h')
  rw [evaluateLine, find?_color_eq_none.mpr hcolor]
  simp only [if_neg hbase]
  cases σ with
  | color name =>
      rw [taken_color h, if_neg (hcolor name)]
      cases IntName.all.find? fun name => name.prop.isPrefixOf (lineKey line) <;> rfl
  | term bright i =>
      rw [taken_term h, if_neg fun h' => hkey h'.1]
      cases IntName.all.find? fun name => name.prop.isPrefixOf (lineKey line) <;> rfl
  | int name =>
      rw [taken_int h, if_congr find?_int_eq_some.symm rfl rfl]
      cases hfind : IntName.all.find? fun name => name.prop.isPrefixOf (lineKey line) with
      | none =>
          rw [if_neg (by rintro ⟨⟩)]
          rfl
      | some name' =>
          show (s.setInt name' (readInt name' line)).get _ = _
          rw [get_setInt]
          by_cases heq : name = name'
          · rw [heq, if_pos rfl, if_pos rfl]
            rfl
          · rw [if_neg fun h' => heq (Setting.int.inj h'),
              if_neg fun h' => heq (Option.some.inj h').symm]
            rfl

/-- A line gives a setting what it is taken for, and leaves it otherwise. -/
theorem get_loadLine (hnul : (0 : UInt8) ∉ line) (s : UiProperties) :
    ∃ t, loadLine line s = some t ∧ ∀ σ, t.get σ = (taken σ line).getD (s.get σ) := by
  refine ⟨_, loadLine_eq hnul s, fun σ => ?_⟩
  by_cases h : IsProperty line
  · rw [if_pos h]
    by_cases hcolor : ∃ name : ColorName, lineKey line = name.prop
    · obtain ⟨name, hkey⟩ := hcolor
      exact get_evaluateLine_color h hkey s
    · rw [not_exists] at hcolor
      by_cases hkey : termclrBase <+: lineKey line
      · exact get_evaluateLine_term h hcolor hkey s
      · exact get_evaluateLine_int h hcolor hkey s
  · have htaken : taken σ line = none := if_neg h
    rw [if_neg h, htaken]
    rfl

/-- The number behind the name of a terminal colour. -/
theorem atoi_termNumber (bright : Bool) (i : Fin 8) :
    atoi [if bright then 57 else 51, 48 + UInt8.ofNat i] = termNumber bright i := by
  revert bright i
  decide

theorem taken_ne_none_of_misread (h : Misread σ line) : taken σ line ≠ none := by
  obtain ⟨hprop, h⟩ := h
  cases σ with
  | color name =>
      obtain ⟨hkey, hloose⟩ := h
      rw [taken_color hprop, if_pos hkey]
      exact mt Option.map_eq_none_iff.mp hloose.1
  | term bright i =>
      obtain ⟨hkey, hnumber, hvalue⟩ := h
      rw [taken_term hprop, if_pos ⟨hkey, hnumber⟩]
      refine mt Option.map_eq_none_iff.mp ?_
      rcases hvalue with hloose | ⟨-, hne⟩
      · exact hloose.1
      · exact hne
  | int name =>
      rw [taken_int hprop, if_pos h.1]
      exact Option.some_ne_none _

theorem taken_eq_meant (h : ¬ Misread σ line) : taken σ line = meant σ line := by
  by_cases hprop : IsProperty line
  swap
  · have htaken : taken σ line = none := if_neg hprop
    rw [htaken, meant, if_neg fun h' => hprop h'.1]
  cases σ with
  | color name =>
      rw [taken_color hprop]
      by_cases hkey : lineKey line = name.prop
      · rw [meant, if_pos hkey, if_pos ⟨hprop, hkey⟩, Setting.value,
          htoc_eq_hexColor fun hloose => h ⟨hprop, hkey, hloose⟩]
      · exact (if_neg hkey).trans (if_neg fun h' => hkey h'.2).symm
  | term bright i =>
      rw [taken_term hprop]
      by_cases hkey : lineKey line = (Setting.term bright i).prop
      · have hbegins : termclrBase <+: lineKey line := hkey ▸ List.prefix_append _ _
        have hnumber : atoi ((lineKey line).drop termclrBase.length) = termNumber bright i := by
          rw [hkey]
          exact (congrArg atoi List.drop_left).trans (atoi_termNumber bright i)
        rw [meant, if_pos ⟨hbegins, hnumber⟩, if_pos ⟨hprop, hkey⟩, Setting.value,
          htoc_eq_hexColor fun hloose => h ⟨hprop, hbegins, hnumber, .inl hloose⟩]
      · have hmeant : meant (.term bright i) line = none := if_neg fun h' => hkey h'.2
        rw [hmeant]
        split
        · next hnumber =>
            -- the number is written in another way, and the value is no colour
            have hvalue : htoc (valueOf line) = none :=
              not_not.mp fun hne => h ⟨hprop, hnumber.1, hnumber.2, .inr ⟨hkey, hne⟩⟩
            rw [hvalue]
            rfl
        · rfl
  | int name =>
      rw [taken_int hprop]
      by_cases hkey : lineKey line = name.prop
      · have hbegins : name.prop <+: lineKey line := hkey ▸ List.prefix_refl _
        rw [meant, if_pos hbegins, if_pos ⟨hprop, hkey⟩, Setting.value, readInt, if_pos hkey]
        by_cases hspaced : IsSpaced line
        · have hzero : atoi (valueOf line) = 0 :=
            not_not.mp fun hne => h ⟨hprop, hbegins, .inr ⟨hspaced, hne⟩⟩
          rw [if_pos hspaced, hzero]
        · rw [if_neg hspaced]
      · exact (if_neg fun hbegins => h ⟨hprop, hbegins, .inl hkey⟩).trans
          (if_neg fun h' => hkey h'.2).symm

theorem meant_ne_taken (h : Misread σ line) : taken σ line ≠ meant σ line := by
  have htaken := taken_ne_none_of_misread h
  obtain ⟨hprop, h⟩ := h
  cases σ with
  | color name =>
      have hmeant : meant (.color name) line = none := by
        rw [meant, if_pos ⟨hprop, h.1⟩, Setting.value, h.2.2]
        rfl
      rwa [hmeant]
  | term bright i =>
      obtain ⟨hkey, hnumber, hvalue⟩ := h
      have hmeant : meant (.term bright i) line = none := by
        rw [meant]
        split
        · next hmeant =>
            rcases hvalue with hloose | ⟨hne, -⟩
            · rw [Setting.value, hloose.2]
              rfl
            · exact absurd hmeant.2 hne
        · rfl
      rwa [hmeant]
  | int name =>
      obtain ⟨hbegins, hkey | ⟨hspaced, hne⟩⟩ := h
      · have hmeant : meant (.int name) line = none := if_neg fun h' => hkey h'.2
        rwa [hmeant]
      · by_cases hkey : lineKey line = name.prop
        · rw [taken_int hprop, if_pos hbegins, meant, if_pos ⟨hprop, hkey⟩, Setting.value, readInt,
            if_pos hkey, if_pos hspaced]
          simpa using hne.symm
        · have hmeant : meant (.int name) line = none := if_neg fun h' => hkey h'.2
          rwa [hmeant]

/-- The lines that are misread are those that are taken for something else than they are meant. -/
theorem misread_iff : Misread σ line ↔ taken σ line ≠ meant σ line := by
  constructor
  · exact meant_ne_taken
  · intro h
    by_contra hread
    exact h (taken_eq_meant hread)

theorem meant_eq_none (h : taken σ line = none) : meant σ line = none := by
  rw [← h]
  refine (taken_eq_meant fun hmisread => ?_).symm
  exact taken_ne_none_of_misread hmisread h

end Line

/-! ## The lines of the file -/

def lines (content : Bytes) : List Bytes := content.splitOn newline

/-- The lines that are read: those before the first NUL. -/
def linesRead (content : Bytes) : List Bytes := (lines content).takeWhile ((0 : UInt8) ∉ ·)

def linesLeft (content : Bytes) : List Bytes := (lines content).dropWhile ((0 : UInt8) ∉ ·)

theorem endedLines_eq (content : Bytes) : endedLines (content ++ [newline, 0]) = linesRead content := by
  induction content with
  | nil => rfl
  | cons c content ih =>
      rw [linesRead, lines] at ih ⊢
      rw [List.cons_append, endedLines, ih]
      by_cases hnewline : c = newline
      · rw [hnewline, if_neg (by decide), if_pos rfl, List.splitOn_cons_eq_if_modifyHead,
          if_pos (beq_self_eq_true _), List.takeWhile_cons_of_pos (by simp)]
      · obtain ⟨head, tail, hsplit, hsplit'⟩ := splitOn_cons_of_ne hnewline content
        rw [hsplit', hsplit, if_neg hnewline]
        by_cases hc : c = 0
        · rw [if_pos hc, List.takeWhile_cons_of_neg (by simp [hc])]
        · rw [if_neg hc]
          by_cases hhead : (0 : UInt8) ∈ head
          · rw [List.takeWhile_cons_of_neg (by simpa using hhead),
              List.takeWhile_cons_of_neg (by simp [hhead])]
          · rw [List.takeWhile_cons_of_pos (by simpa using hhead),
              List.takeWhile_cons_of_pos (by simp [hhead, Ne.symm hc])]

/-- Each setting has the value of the last line that is taken for it. -/
theorem loadProperties_eq (content : Bytes) (s : UiProperties) :
    ∃ t, loadProperties (some content) s = some t ∧
      ∀ σ, t.get σ = (lastOf (taken σ) (linesRead content)).getD (s.get σ) := by
  rw [loadProperties, endedLines_eq]
  refine foldlM_lastOf (fun line hline s => ?_) s
  have hnul := List.mem_takeWhile_imp (p := fun l : Bytes => decide ((0 : UInt8) ∉ l)) hline
  exact get_loadLine (of_decide_eq_true hnul) s

/-! ## The settings take effect -/

/-- Each setting has the value of the last line that is meant for it. -/
def TakesEffect (content : Bytes) : Prop :=
  ∀ s : UiProperties, ∃ t, loadProperties (some content) s = some t ∧
    ∀ σ, t.get σ = (lastOf (meant σ) (lines content)).getD (s.get σ)

/-- The lines that decide are read as they are meant: a misread line has the right value by chance,
and so has the last line behind a NUL. -/
structure IsReadAsMeant (content : Bytes) : Prop where
  read : ∀ σ line, Decides (taken σ) (linesRead content) line → Misread σ line →
    taken σ line = lastOf (meant σ) (lines content)
  left : ∀ σ line, Decides (meant σ) (linesLeft content) line →
    meant σ line = lastOf (taken σ) (linesRead content)

theorem isReadAsMeant_iff (content : Bytes) : IsReadAsMeant content ↔
    ∀ σ, lastOf (taken σ) (linesRead content) = lastOf (meant σ) (lines content) := by
  have hlines : linesRead content ++ linesLeft content = lines content :=
    List.takeWhile_append_dropWhile
  have hiff : ∀ σ, lastOf (taken σ) (linesRead content) =
        lastOf (meant σ) (linesRead content ++ linesLeft content) ↔ _ :=
    fun σ => lastOf_eq_iff fun line => meant_eq_none
  simp only [hlines, ← misread_iff] at hiff
  constructor
  · intro h σ
    exact (hiff σ).mpr ⟨h.read σ, h.left σ⟩
  · intro h
    exact ⟨fun σ => ((hiff σ).mp (h σ)).1, fun σ => ((hiff σ).mp (h σ)).2⟩

/-- No setting is fixed before a file is read. -/
theorem exists_get_ne (σ : Setting) : ∃ s t : UiProperties, s.get σ ≠ t.get σ := by
  refine ⟨⟨fun _ => ⟨0, 0, 0, 0⟩, fun _ => ⟨0, 0, 0, 0⟩, fun _ => 0⟩,
    ⟨fun _ => ⟨1, 1, 1, 1⟩, fun _ => ⟨1, 1, 1, 1⟩, fun _ => 1⟩, ?_⟩
  cases σ <;> simp [UiProperties.get]

theorem takesEffect_iff_lastOf (content : Bytes) : TakesEffect content ↔
    ∀ σ, lastOf (taken σ) (linesRead content) = lastOf (meant σ) (lines content) := by
  constructor
  · intro h σ
    have hget : ∀ s : UiProperties, (lastOf (taken σ) (linesRead content)).getD (s.get σ) =
        (lastOf (meant σ) (lines content)).getD (s.get σ) := by
      intro s
      obtain ⟨t, ht, htaken⟩ := loadProperties_eq content s
      obtain ⟨t', ht', hmeant⟩ := h s
      rw [ht, Option.some.injEq] at ht'
      rw [← htaken, ht', hmeant]
    obtain ⟨s, t, hne⟩ := exists_get_ne σ
    exact eq_of_getD_eq hne (hget s) (hget t)
  · intro h s
    obtain ⟨t, ht, hget⟩ := loadProperties_eq content s
    exact ⟨t, ht, fun σ => by rw [hget, h]⟩

/-- Which property files take effect as they are written. -/
theorem takesEffect_iff (content : Bytes) : TakesEffect content ↔ IsReadAsMeant content := by
  rw [takesEffect_iff_lastOf, isReadAsMeant_iff]

/-- The space before the equals sign makes the value 0. -/
theorem spaced_integer_lost : ¬ TakesEffect (cstr "ui.install.x =5\n") := by
  rw [takesEffect_iff_lastOf]
  intro h
  have hmeant : lastOf (meant (.int .installX)) (lines (cstr "ui.install.x =5\n")) =
      some (.int 5) := by decide
  have htaken : lastOf (taken (.int .installX)) (linesRead (cstr "ui.install.x =5\n")) =
      some (.int 0) := by decide
  have heq := h (.int .installX)
  rw [hmeant, htaken] at heq
  revert heq
  decide

end OpenRecovery.Ui
