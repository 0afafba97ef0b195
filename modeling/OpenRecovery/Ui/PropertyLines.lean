import OpenRecovery.Ui.Properties

/-!
# One line of the properties

What `loadLine` does to a line without a NUL, told without pointers (`loadLine_eq`). A colour is
read from the trimmed value. An integer is read from the place behind the name and one more byte,
where the value only begins if the key is the name and the equals sign follows at once: spaces
before the equals sign have become NULs, and in a longer key this place is inside of the key.
-/

set_option autoImplicit false

namespace OpenRecovery.Ui

open OpenRecovery.Storage OpenRecovery.Updater

/-! ## The parts of a line -/

/-- The text before the first equals sign. -/
def keyPart (line : Bytes) : Bytes := line.takeWhile (· ≠ 61)

def lineKey (line : Bytes) : Bytes := trim (keyPart line)

/-- There are spaces between the key and the equals sign. -/
def IsSpaced (line : Bytes) : Prop := ((keyPart line).dropWhile isspace).rtakeWhile isspace ≠ []

instance (line : Bytes) : Decidable (IsSpaced line) := instDecidableNot

/-- A line that is no comment and has an equals sign. -/
def IsProperty (line : Bytes) : Prop :=
  (61 : UInt8) ∈ line ∧ (line.dropWhile isspace).head? ≠ some 35

instance (line : Bytes) : Decidable (IsProperty line) := instDecidableAnd

/-- The integer that is read for a name that the key begins with. -/
def readInt (name : IntName) (line : Bytes) : ℤ :=
  if lineKey line = name.prop then if IsSpaced line then 0 else atoi (valueOf line)
  else atoi ((lineKey line).drop (name.prop.length + 1))

/-- `evaluate_property` without pointers. -/
def evaluateLine (line : Bytes) (s : UiProperties) : UiProperties :=
  match ColorName.all.find? fun name => name.prop = lineKey line with
  | some name =>
      match htoc (valueOf line) with
      | some c => s.setColor name c
      | none => s
  | none =>
      if termclrBase.isPrefixOf (lineKey line) then
        match htoc (valueOf line) with
        | none => s
        | some c =>
            match termIndex (atoi ((lineKey line).drop termclrBase.length)) with
            | some i => s.setTermColor i c
            | none => s
      else
        match IntName.all.find? fun name => name.prop.isPrefixOf (lineKey line) with
        | some name => s.setInt name (readInt name line)
        | none => s

theorem atoi_spaces {spaces text : Bytes} (h : ∀ c ∈ spaces, isspace c = true) :
    atoi (spaces ++ text) = atoi text := by
  have hdrop : (spaces ++ text).dropWhile isspace = text.dropWhile isspace :=
    List.dropWhile_append_of_pos h
  simp only [atoi, strtol, hdrop, apply_ite Prod.fst]

/-! ## The buffer -/

section Buffer

variable (u v : Bytes)

theorem stringAt_drop {k : Bytes} (hk : (0 : UInt8) ∉ k) {i : ℕ} (hi : i ≤ k.length) :
    stringAt (u ++ (k ++ 0 :: v)) (u.length + i) = some (k.drop i) := by
  have hbuffer : u ++ (k ++ 0 :: v) = (u ++ k.take i) ++ (k.drop i ++ 0 :: v) := by
    conv_lhs => rw [← List.take_append_drop i k]
    simp only [List.append_assoc]
  have hplace : (u.length : Int) + i = ((u ++ k.take i).length : Int) := by
    rw [List.length_append, List.length_take, Nat.min_eq_left hi, Nat.cast_add]
  rw [hbuffer, hplace]
  exact stringAt_append _ _ fun h => hk (List.mem_of_mem_drop h)

/-- The pointer behind the spaces. -/
theorem skipBlanks_append {s : Bytes} :
    skipBlanks (u ++ (s ++ 0 :: v)) u.length = some ((u ++ s.takeWhile isspace).length : Int) := by
  -- the loop stops at the NUL at the latest
  obtain ⟨c, w, hcw, hc⟩ : ∃ c w, s.dropWhile isspace ++ 0 :: v = c :: w ∧ isspace c = false := by
    cases hdrop : s.dropWhile isspace with
    | nil => exact ⟨0, v, rfl, rfl⟩
    | cons c w =>
        have hhead : isspace c = false := head?_dropWhile (f := isspace) (s := s) c (by simp [hdrop])
        exact ⟨c, w ++ 0 :: v, rfl, hhead⟩
  have hbuffer : u ++ (s ++ 0 :: v) = u ++ (s.takeWhile isspace ++ c :: w) := by
    rw [← hcw, ← List.append_assoc (s.takeWhile isspace), List.takeWhile_append_dropWhile]
  rw [skipBlanks, hbuffer]
  exact advance_append u w c (fun x hx => List.mem_takeWhile_imp hx) hc (by simp; omega)

/-- The buffer behind the spaces of the line: the key, NULs, and the value behind spaces. -/
def keyBuffer (key : Bytes) (n : ℕ) (spaces value : Bytes) (m : ℕ) : Bytes :=
  key ++ (List.replicate n 0 ++ 0 :: (spaces ++ (value ++ (List.replicate m 0 ++ [0]))))

theorem replicate_append_zero (n : ℕ) (w : Bytes) :
    ∃ w', List.replicate n 0 ++ 0 :: w = 0 :: w' := by
  cases n with
  | zero => exact ⟨w, rfl⟩
  | succ n => exact ⟨_, rfl⟩

section KeyBuffer

variable (n m : ℕ)

theorem stringAt_key (spaces value : Bytes) {key : Bytes} {i : ℕ} (hkey : (0 : UInt8) ∉ key)
    (hi : i ≤ key.length) :
    stringAt (u ++ keyBuffer key n spaces value m) (u.length + i) = some (key.drop i) := by
  obtain ⟨w, hw⟩ := replicate_append_zero n (spaces ++ (value ++ (List.replicate m 0 ++ [0])))
  rw [keyBuffer, hw]
  exact stringAt_drop u w hkey hi

theorem stringAt_value (key spaces : Bytes) {value : Bytes} (hvalue : (0 : UInt8) ∉ value) :
    stringAt (u ++ keyBuffer key n spaces value m)
      ((u ++ (key ++ (List.replicate n 0 ++ 0 :: spaces))).length : Int) = some value := by
  obtain ⟨w, hw⟩ := replicate_append_zero m []
  have hbuffer : u ++ keyBuffer key n spaces value m =
      (u ++ (key ++ (List.replicate n 0 ++ 0 :: spaces))) ++ (value ++ 0 :: w) := by
    rw [keyBuffer, hw]
    simp only [List.append_assoc, List.cons_append]
  rw [hbuffer]
  exact stringAt_append _ _ hvalue

/-- What stands behind the key and one more byte. -/
theorem stringAt_behind (key : Bytes) {spaces value : Bytes} (hspaces : (0 : UInt8) ∉ spaces) (hvalue : (0 : UInt8) ∉ value) :
    stringAt (u ++ keyBuffer key n spaces value m) (u.length + key.length + 1) =
      some (if n = 0 then spaces ++ value else []) := by
  have hplace : (u.length : Int) + key.length + 1 = ((u ++ (key ++ [0])).length : Int) := by
    rw [List.length_append, List.length_append, List.length_singleton]
    push_cast
    ring
  rw [hplace]
  cases n with
  | zero =>
      -- the NUL of the equals sign follows the key, and it is passed over
      obtain ⟨w, hw⟩ := replicate_append_zero m []
      have hbuffer : u ++ keyBuffer key 0 spaces value m =
          (u ++ (key ++ [0])) ++ ((spaces ++ value) ++ 0 :: w) := by
        rw [keyBuffer, hw]
        simp only [List.append_assoc, List.cons_append, List.replicate_zero, List.nil_append]
      have hnul : (0 : UInt8) ∉ spaces ++ value := by
        rw [List.mem_append, not_or]
        exact ⟨hspaces, hvalue⟩
      rw [hbuffer, if_pos rfl]
      exact stringAt_append _ _ hnul
  | succ n =>
      -- there is another NUL behind the one that is passed over
      obtain ⟨w, hw⟩ := replicate_append_zero n (spaces ++ (value ++ (List.replicate m 0 ++ [0])))
      have hbuffer : u ++ keyBuffer key (n + 1) spaces value m =
          (u ++ (key ++ [0])) ++ ([] ++ 0 :: w) := by
        rw [keyBuffer, List.replicate_succ, List.cons_append, hw]
        simp only [List.append_assoc, List.cons_append, List.nil_append]
      rw [hbuffer, if_neg (Nat.succ_ne_zero n)]
      exact stringAt_append _ _ List.not_mem_nil

end KeyBuffer

end Buffer

/-! ## The line -/

section Line

variable {line : Bytes}

/-- A line with an equals sign in its parts. -/
theorem line_parts (h : (61 : UInt8) ∈ line) : ∃ rest, line = keyPart line ++ 61 :: rest ∧
    valueOf line = trim rest := by
  obtain ⟨rest, hline, hrest⟩ := exists_break h
  exact ⟨rest, hline, by rw [valueOf, hrest]⟩

/-- What `evaluate_property` finds in the buffer. -/
theorem evaluateProperty_eq {u spaces value : Bytes} (n m : ℕ) {line : Bytes}
    (hkey : (0 : UInt8) ∉ lineKey line) (hspaces : ∀ c ∈ spaces, isspace c = true)
    (hvalue : (0 : UInt8) ∉ value) (hvalueOf : valueOf line = value) (hn : n = 0 ↔ ¬ IsSpaced line)
    (s : UiProperties) :
    evaluateProperty (u ++ keyBuffer (lineKey line) n spaces value m) u.length
        ((u ++ (lineKey line ++ (List.replicate n 0 ++ 0 :: spaces))).length : Int) s =
      some (evaluateLine line s) := by
  have hspaces' : (0 : UInt8) ∉ spaces := fun h => absurd (hspaces 0 h) (by decide)
  have hstart := stringAt_key u n m spaces value hkey (Nat.zero_le _)
  rw [Nat.cast_zero, add_zero, List.drop_zero] at hstart
  rw [evaluateProperty, evaluateLine, hstart, hvalueOf]
  simp only [Option.bind_eq_bind, Option.bind_some, stringAt_value u n m (lineKey line) spaces hvalue]
  -- the colours compare the whole key, all others its beginning
  cases hcolor : ColorName.all.find? fun name => name.prop = lineKey line with
  | some name => rfl
  | none =>
      by_cases hbase : termclrBase.isPrefixOf (lineKey line) = true
      · have hle := (List.isPrefixOf_iff_prefix.mp hbase).length_le
        simp only [hbase, if_true, stringAt_key u n m spaces value hkey hle]
        cases htoc value with
        | none => rfl
        | some c => rfl
      · simp only [hbase]
        cases hint : IntName.all.find? fun name => name.prop.isPrefixOf (lineKey line) with
        | none => rfl
        | some name =>
            have hbegins := List.isPrefixOf_iff_prefix.mp
              (List.find?_some (p := fun name : IntName => name.prop.isPrefixOf (lineKey line)) hint)
            have hread : ∃ text, stringAt (u ++ keyBuffer (lineKey line) n spaces value m)
                (u.length + name.prop.length + 1) = some text ∧ atoi text = readInt name line := by
              by_cases hname : lineKey line = name.prop
              · have hbehind := stringAt_behind u n m (lineKey line) hspaces' hvalue
                rw [hname] at hbehind ⊢
                refine ⟨_, hbehind, ?_⟩
                rw [readInt, if_pos hname]
                -- spaces before the equals sign end the text at once
                by_cases hzero : n = 0
                · rw [if_pos hzero, if_neg (hn.mp hzero), atoi_spaces hspaces, hvalueOf]
                · rw [if_neg hzero, if_pos (not_not.mp (mt hn.mpr hzero))]
                  rfl
              · -- the key is longer than the name
                have hlt : name.prop.length + 1 ≤ (lineKey line).length := by
                  refine Nat.lt_of_le_of_ne hbegins.length_le fun hlen => hname ?_
                  exact (hbegins.eq_of_length hlen).symm
                have hdrop := stringAt_key u n m spaces value hkey hlt
                push_cast at hdrop
                rw [← add_assoc] at hdrop
                exact ⟨_, hdrop, by rw [readInt, if_neg hname]⟩
            obtain ⟨text, htext, hatoi⟩ := hread
            simp only [htext, Option.bind_some, hatoi, Bool.false_eq_true, if_false]
            rfl

/-- The first byte behind the spaces decides whether the line is a comment. -/
theorem head?_dropWhile_line {rest : Bytes} (hline : line = keyPart line ++ 61 :: rest) :
    (line.dropWhile isspace).head? = some 35 ↔
      ((keyPart line).dropWhile isspace).head? = some 35 := by
  have hdrop : line.dropWhile isspace = (keyPart line).dropWhile isspace ++ 61 :: rest := by
    conv_lhs => rw [hline]
    rw [List.dropWhile_append]
    split
    · next hnil =>
        rw [List.isEmpty_iff.mp hnil, List.dropWhile_cons_of_neg (by decide), List.nil_append]
    · rfl
  rw [hdrop]
  cases (keyPart line).dropWhile isspace with
  | nil =>
      rw [List.nil_append, List.head?_cons]
      exact iff_of_false (by decide) (by decide)
  | cons c q => rfl

section Loops

variable {front key back value : Bytes}

/-- The first loop finds the beginning of the key. -/
theorem skipBlanks_key (hfront : (front ++ key).takeWhile isspace = front) (w : Bytes) :
    skipBlanks (front ++ (key ++ 0 :: (w ++ [0]))) 0 = some (front.length : Int) := by
  have h := skipBlanks_append [] (w ++ [0]) (s := front ++ key)
  rw [hfront, List.nil_append, List.nil_append, List.append_assoc] at h
  exact h

/-- The second one zeroes the blanks behind it. -/
theorem zeroBack_key (front : Bytes) (hkey : ∀ x ∈ key.head?, isspace x = false) (w : Bytes) :
    zeroBack isspace (front ++ (key ++ 0 :: w)) front.length (front ++ (key ++ 0 :: w)).length
      (((front ++ key).length : Int) + 1 - 2) =
      some (front ++ (key.rdropWhile isspace ++
        (List.replicate (key.rtakeWhile isspace).length 0 ++ 0 :: w))) := by
  rw [show ((front ++ key).length : Int) + 1 - 2 = (front ++ key).length - 1 by omega]
  apply zeroBack_isspace front _ hkey
  simp only [List.length_append, List.length_cons]
  omega

/-- The third one finds the beginning of the value. -/
theorem skipBlanks_value (front key : Bytes) (hback : (back ++ value).takeWhile isspace = back) :
    skipBlanks (front ++ (key.rdropWhile isspace ++
        (List.replicate (key.rtakeWhile isspace).length 0 ++ 0 :: ((back ++ value) ++ [0]))))
      (((front ++ key).length : Int) + 1) =
      some ((front ++ (key.rdropWhile isspace ++
        (List.replicate (key.rtakeWhile isspace).length 0 ++ 0 :: back))).length : Int) := by
  have hsplit := congrArg List.length (List.rdropWhile_append_rtakeWhile (p := isspace) (l := key))
  rw [List.length_append] at hsplit
  have hregroup : ∀ w : Bytes, front ++ (key.rdropWhile isspace ++
      (List.replicate (key.rtakeWhile isspace).length 0 ++ 0 :: w)) =
        (front ++ (key.rdropWhile isspace ++
          (List.replicate (key.rtakeWhile isspace).length 0 ++ [0]))) ++ w := by
    intro w
    simp only [List.append_assoc, List.cons_append, List.nil_append]
  have hplace : ((front ++ key).length : Int) + 1 =
      ((front ++ (key.rdropWhile isspace ++
        (List.replicate (key.rtakeWhile isspace).length 0 ++ [0]))).length : Int) := by
    simp only [List.length_append, List.length_replicate, List.length_singleton]
    push_cast
    omega
  rw [hregroup ((back ++ value) ++ [0]), hregroup back, hplace]
  have h := skipBlanks_append (front ++ (key.rdropWhile isspace ++
    (List.replicate (key.rtakeWhile isspace).length 0 ++ [0]))) [] (s := back ++ value)
  rwa [hback] at h

/-- The last one zeroes the blanks behind the value. -/
theorem zeroBack_value (front key back : Bytes) (hvalue : ∀ x ∈ value.head?, isspace x = false)
    {stop : Int} (hstop : stop = ((front ++ (key.rdropWhile isspace ++
      (List.replicate (key.rtakeWhile isspace).length 0 ++ 0 :: back)) ++ value).length : Int) - 1) :
    zeroBack isspace (front ++ (key.rdropWhile isspace ++
        (List.replicate (key.rtakeWhile isspace).length 0 ++ 0 :: ((back ++ value) ++ [0]))))
      ((front ++ (key.rdropWhile isspace ++
        (List.replicate (key.rtakeWhile isspace).length 0 ++ 0 :: back))).length : Int)
      (front ++ (key.rdropWhile isspace ++
        (List.replicate (key.rtakeWhile isspace).length 0 ++ 0 :: ((back ++ value) ++ [0])))).length
      stop =
      some (front ++ keyBuffer (key.rdropWhile isspace) (key.rtakeWhile isspace).length back
        (value.rdropWhile isspace) (value.rtakeWhile isspace).length) := by
  have hvalueBuffer : front ++ (key.rdropWhile isspace ++
      (List.replicate (key.rtakeWhile isspace).length 0 ++ 0 :: ((back ++ value) ++ [0]))) =
      (front ++ (key.rdropWhile isspace ++
        (List.replicate (key.rtakeWhile isspace).length 0 ++ 0 :: back))) ++ (value ++ [0]) := by
    simp only [List.append_assoc, List.cons_append]
  rw [hstop, hvalueBuffer]
  have h := zeroBack_isspace (front ++ (key.rdropWhile isspace ++
    (List.replicate (key.rtakeWhile isspace).length 0 ++ 0 :: back))) [0] hvalue
    (n := (front ++ (key.rdropWhile isspace ++
        (List.replicate (key.rtakeWhile isspace).length 0 ++ 0 :: back)) ++ (value ++ [0])).length)
    (by
      simp only [List.length_append, List.length_cons]
      omega)
  rw [h, keyBuffer]
  simp only [List.append_assoc, List.cons_append]

end Loops

/-- The four loops over the pointers: the key is trimmed, then the value. -/
theorem loadLine_loops {front key back value : Bytes} (hline : line = front ++ key ++ 61 :: (back ++ value))
    (hpart : keyPart line = front ++ key) (hnul : (0 : UInt8) ∉ line)
    (hfront : (front ++ key).takeWhile isspace = front) (hback : (back ++ value).takeWhile isspace = back)
    (hkey : ∀ x ∈ key.head?, isspace x = false) (hvalue : ∀ x ∈ value.head?, isspace x = false)
    (s : UiProperties) :
    loadLine line s =
      if key.head? = some 35 then some s
      else
        evaluateProperty
          (front ++ keyBuffer (key.rdropWhile isspace) (key.rtakeWhile isspace).length back
            (value.rdropWhile isspace) (value.rtakeWhile isspace).length)
          front.length
          ((front ++ (key.rdropWhile isspace ++
            (List.replicate (key.rtakeWhile isspace).length 0 ++ 0 :: back))).length : Int) s := by
  have hbuffer : line ++ [0] = (front ++ key) ++ 61 :: ((back ++ value) ++ [0]) := by
    rw [hline]
    simp only [List.append_assoc, List.cons_append]
  have hequal : strchr (line ++ [0]) 0 61 = some (some ((front ++ key).length : Int)) := by
    have h := strchr_append [] [] 61 hnul
    rw [if_pos (by rw [hline]; simp)] at h
    rw [← hpart]
    exact h
  have hstore : store (line ++ [0]) ((front ++ key).length : Int) 0 =
      some (front ++ (key ++ 0 :: ((back ++ value) ++ [0]))) := by
    rw [hbuffer, store_append, List.append_assoc]
  obtain ⟨c, hload, hc⟩ : ∃ c, load (front ++ (key ++ 0 :: ((back ++ value) ++ [0])))
      front.length = some c ∧ (c = 35 ↔ key.head? = some 35) := by
    cases key with
    | nil => exact ⟨0, load_append front _ 0, iff_of_false (by decide) (by decide)⟩
    | cons c key => exact ⟨c, load_append front _ c, by simp⟩
  have hsplit := congrArg List.length (List.rdropWhile_append_rtakeWhile (p := isspace) (l := key))
  rw [List.length_append] at hsplit
  have hstop : ((line ++ [0]).length : Int) - 2 =
      ((front ++ (key.rdropWhile isspace ++
        (List.replicate (key.rtakeWhile isspace).length 0 ++ 0 :: back)) ++ value).length : Int) - 1 := by
    rw [hbuffer]
    simp only [List.length_append, List.length_replicate, List.length_cons, List.length_nil]
    push_cast
    omega
  rw [loadLine]
  simp only [hequal, Option.bind_eq_bind, Option.bind_some, hstore, skipBlanks_key hfront, hload, hc]
  split
  · rfl
  · simp only [zeroBack_key front hkey, Option.bind_some, skipBlanks_value front key hback,
      zeroBack_value front key back hvalue hstop]

/-- A line without a NUL, without pointers. -/
theorem loadLine_eq (hnul : (0 : UInt8) ∉ line) (s : UiProperties) :
    loadLine line s = some (if IsProperty line then evaluateLine line s else s) := by
  by_cases hequal : (61 : UInt8) ∈ line
  · obtain ⟨rest, hline, hvalueOf⟩ := line_parts hequal
    have hcomment := head?_dropWhile_line hline
    have hpart := List.takeWhile_append_dropWhile (p := isspace) (l := keyPart line)
    have hrest := List.takeWhile_append_dropWhile (p := isspace) (l := rest)
    have hkey : lineKey line = ((keyPart line).dropWhile isspace).rdropWhile isspace := rfl
    have hvalue : valueOf line = (rest.dropWhile isspace).rdropWhile isspace := hvalueOf
    have hnulKey : (0 : UInt8) ∉ lineKey line := fun h => hnul (by
      rw [hline]
      refine List.mem_append_left _ ((List.dropWhile_sublist isspace).mem ?_)
      exact (List.rdropWhile_prefix isspace _).sublist.mem h)
    have hnulValue : (0 : UInt8) ∉ valueOf line := fun h => hnul (by
      rw [hline]
      refine List.mem_append_right _ (List.mem_cons_of_mem _ ((List.dropWhile_sublist isspace).mem ?_))
      rw [hvalue] at h
      exact (List.rdropWhile_prefix isspace _).sublist.mem h)
    -- spaces, key, equals sign, spaces, value
    have hparts : line = ((keyPart line).takeWhile isspace ++ (keyPart line).dropWhile isspace) ++
        61 :: (rest.takeWhile isspace ++ rest.dropWhile isspace) := by
      rw [hpart, hrest]
      exact hline
    have hloops := loadLine_loops hparts hpart.symm hnul (by rw [hpart]) (by rw [hrest])
      head?_dropWhile head?_dropWhile s
    rw [hloops]
    by_cases hc : ((keyPart line).dropWhile isspace).head? = some 35
    · rw [if_pos hc, if_neg fun h => h.2 (hcomment.mpr hc)]
    · rw [if_neg hc, if_pos ⟨hequal, fun h => hc (hcomment.mp h)⟩, ← hkey, ← hvalue]
      apply evaluateProperty_eq _ _ hnulKey (fun c hc' => List.mem_takeWhile_imp hc') hnulValue rfl
      rw [IsSpaced, not_not, List.length_eq_zero_iff]
  · -- no equals sign
    have hstrchr := strchr_append [] [] 61 hnul
    rw [List.nil_append, List.nil_append, List.length_nil, Nat.cast_zero, if_neg hequal] at hstrchr
    rw [loadLine]
    simp only [hstrchr, Option.bind_eq_bind, Option.bind_some]
    rw [if_neg fun h => hequal h.1]
    rfl

end Line

end OpenRecovery.Ui
