import OpenRecovery.ImgDiff.QSufSort
import OpenRecovery.ImgDiff.Segments
import OpenRecovery.ImgDiff.SuffixOrder

/-!
# Groups of suffixes

What the arrays of `qsufsort` say about the suffixes while they are sorted. A position is numbered
by the last index of its group. Positions of different numbers are in the order of their suffixes,
positions of one number share their first `h` bytes, and the array `I` is laid out in groups and in
runs of positions that have found their place. A part of a group is split by numbering what is
smallest in it and splitting the rest: `Pending` is what holds of the part before, `Divided` what
has become of it.
-/

set_option autoImplicit false

namespace OpenRecovery.ImgDiff

open OpenRecovery.ApplyPatch OpenRecovery.Segments OpenRecovery.Storage OpenRecovery.SuffixOrder

variable {old : Bytes} {h : ℕ}

/-- The numbers are compatible with the order of the suffixes, and tell `h` bytes of them. -/
structure Numbered (old : Bytes) (h : ℕ) (V : ℕ → ℕ) : Prop where
  le : ∀ p, p ≤ old.length → V p ≤ old.length
  lt : ∀ p q, p ≤ old.length → q ≤ old.length → V p < V q → old.drop p < old.drop q
  agree : ∀ p q, p ≤ old.length → q ≤ old.length → V p = V q → Agree old h p q

/-- The position is one of the `len` entries from `a` on. -/
def Lists (I : ℕ → ℤ) (a len p : ℕ) : Prop := ∃ i, a ≤ i ∧ i < a + len ∧ I i = p

/-- The entries are positions, each there once. -/
structure Positions (I : ℕ → ℤ) (a len : ℕ) : Prop where
  entry : ∀ i, a ≤ i → i < a + len → ∃ p : ℕ, I i = p
  inj : ∀ i j, a ≤ i → i < a + len → a ≤ j → j < a + len → I i = I j → i = j

/-- One position has this number. -/
def Settled (old : Bytes) (V : ℕ → ℕ) (i : ℕ) : Prop :=
  ∃ p, p ≤ old.length ∧ V p = i ∧ ∀ q, q ≤ old.length → V q = i → q = p

/-- The entries are the positions that have the last of their indices for a number. All of them are
`h` bytes or more from the end. -/
structure Group (old : Bytes) (h : ℕ) (I : ℕ → ℤ) (V : ℕ → ℕ) (a len : ℕ) : Prop where
  positions : Positions I a len
  listed : ∀ p, Lists I a len p → p + h ≤ old.length ∧ V p + 1 = a + len
  all : ∀ q, q ≤ old.length → a ≤ V q → V q < a + len → Lists I a len q

/-- The entries from `a` to `b`: runs of settled indices, headed by minus their length, and groups.
-/
inductive Layout (old : Bytes) (h : ℕ) (I : ℕ → ℤ) (V : ℕ → ℕ) : ℕ → ℕ → Prop where
  | nil (a : ℕ) : Layout old h I V a a
  | run {a m b : ℕ} : I a = -m → 0 < m → (∀ i, a ≤ i → i < a + m → Settled old V i) →
      Layout old h I V (a + m) b → Layout old h I V a b
  | group {a m b : ℕ} : 0 < m → Group old h I V a m → Layout old h I V (a + m) b →
      Layout old h I V a b

/-- A part of a group before it is split: all of its positions have the number `v`, and the others
are out of the way of the numbers the part will have. -/
structure Pending (old : Bytes) (h : ℕ) (s : Arrays) (a len v : ℕ) : Prop where
  numbered : Numbered old h s.V
  positions : Positions s.I a len
  listed : ∀ p, Lists s.I a len p → p + h ≤ old.length ∧ s.V p = v
  le : a + len ≤ v + 1
  others : ∀ q, q ≤ old.length → ¬Lists s.I a len q →
    s.V q < a ∨ a + len ≤ s.V q ∧ ∀ p, Lists s.I a len p → old.drop p < old.drop q

/-- What has become of a part: it is sorted by twice as many bytes, and nothing else has changed. -/
structure Divided (old : Bytes) (h : ℕ) (s : Arrays) (a len : ℕ) (s' : Arrays) : Prop where
  keepsI : ∀ i, ¬(a ≤ i ∧ i < a + len) → s'.I i = s.I i
  keepsV : ∀ q, ¬Lists s.I a len q → s'.V q = s.V q
  within : ∀ p, Lists s.I a len p → a ≤ s'.V p ∧ s'.V p < a + len
  numbered : Numbered old h s'.V
  agree : ∀ p q, Lists s.I a len p → Lists s.I a len q → s'.V p = s'.V q → Agree old (h + h) p q
  layout : Layout old (h + h) s'.I s'.V a (a + len)

/-! ## Entries -/

section Lists

variable {I I' : ℕ → ℤ} {a len m l p : ℕ}

/-- The positions of a part depend on its entries only. -/
theorem Lists.congr (hI : ∀ i, a ≤ i → i < a + len → I' i = I i) :
    Lists I' a len p ↔ Lists I a len p := by
  constructor
  · rintro ⟨i, ha, hb, heq⟩
    exact ⟨i, ha, hb, by rw [← hI i ha hb, heq]⟩
  · rintro ⟨i, ha, hb, heq⟩
    exact ⟨i, ha, hb, by rw [hI i ha hb, heq]⟩

/-- A part is its two pieces. -/
theorem lists_add : Lists I a (m + l) p ↔ Lists I a m p ∨ Lists I (a + m) l p := by
  constructor
  · rintro ⟨i, ha, hb, heq⟩
    by_cases him : i < a + m
    · exact Or.inl ⟨i, ha, him, heq⟩
    · exact Or.inr ⟨i, by omega, by omega, heq⟩
  · rintro (⟨i, ha, hb, heq⟩ | ⟨i, ha, hb, heq⟩)
    · exact ⟨i, ha, by omega, heq⟩
    · exact ⟨i, by omega, by omega, heq⟩

theorem not_lists_zero : ¬Lists I a 0 p := by
  rintro ⟨i, ha, hb, -⟩
  omega

/-- The first piece of a part. -/
theorem Positions.left (hp : Positions I a (m + l)) : Positions I a m where
  entry i ha hb := hp.entry i ha (by omega)
  inj i j hia hib hja hjb := hp.inj i j hia (by omega) hja (by omega)

/-- The second piece of a part. -/
theorem Positions.right (hp : Positions I a (m + l)) : Positions I (a + m) l where
  entry i ha hb := hp.entry i (by omega) (by omega)
  inj i j hia hib hja hjb := hp.inj i j (by omega) (by omega) (by omega) (by omega)

/-- Entries that are the same. -/
theorem Positions.congr (hp : Positions I a len) (hI : ∀ i, a ≤ i → i < a + len → I' i = I i) :
    Positions I' a len where
  entry i ha hb := by
    rw [hI i ha hb]
    exact hp.entry i ha hb
  inj i j hia hib hja hjb heq := by
    rw [hI i hia hib, hI j hja hjb] at heq
    exact hp.inj i j hia hib hja hjb heq

/-- No position is on both sides. -/
theorem Positions.not_lists_right (hp : Positions I a (m + l)) (hl : Lists I a m p) :
    ¬Lists I (a + m) l p := by
  obtain ⟨i, hia, hib, hi⟩ := hl
  rintro ⟨j, hja, hjb, hj⟩
  have heq := hp.inj i j hia (by omega) (by omega) (by omega) (hi.trans hj.symm)
  omega

/-- No position is in both pieces. -/
theorem Positions.not_lists_left (hp : Positions I a (m + l)) (hr : Lists I (a + m) l p) :
    ¬Lists I a m p := by
  intro hl
  exact hp.not_lists_right hl hr

/-- A rearranged part has the same positions. -/
theorem lists_of_rearranged (hr : Rearranged a (a + len) I I') :
    Lists I' a len p ↔ Lists I a len p := by
  rw [Lists, Lists]
  have hmem := (hr.perm (n := len)).mem_iff (a := (p : ℤ))
  rwa [mem_segment, mem_segment] at hmem

/-- And it has each of them once. -/
theorem Positions.rearranged (hp : Positions I a len) (hr : Rearranged a (a + len) I I') :
    Positions I' a len := by
  constructor
  · intro i ha hb
    obtain ⟨j, hja, hjb, heq⟩ := hr.exists_index ⟨ha, hb⟩
    rw [heq]
    exact hp.entry j hja hjb
  · intro i j hia hib hja hjb heq
    obtain ⟨σ, hσ, rfl⟩ := hr
    obtain ⟨hi, hi'⟩ := (mem_of_fixes hσ).mpr ⟨hia, hib⟩
    obtain ⟨hj, hj'⟩ := (mem_of_fixes hσ).mpr ⟨hja, hjb⟩
    exact σ.injective (hp.inj _ _ hi hi' hj hj' heq)

end Lists

/-! ## Layouts -/

section Layout

variable {I I' : ℕ → ℤ} {V V' : ℕ → ℕ} {a b c len : ℕ}

theorem Layout.le (hl : Layout old h I V a b) : a ≤ b := by
  induction hl with
  | nil a => exact Nat.le_refl a
  | run _ _ _ _ ih => omega
  | group _ _ _ ih => omega

/-- Two layouts, one after the other. -/
theorem Layout.append (hl : Layout old h I V a b) (hr : Layout old h I V b c) :
    Layout old h I V a c := by
  induction hl with
  | nil a => exact hr
  | run hI hm hs _ ih => exact Layout.run hI hm hs (ih hr)
  | group hm hg _ ih => exact Layout.group hm hg (ih hr)

/-- Numbers change in a part only if neither the old nor the new one is in `a .. b`. -/
def KeepsNumbers (old : Bytes) (V V' : ℕ → ℕ) (a b : ℕ) : Prop :=
  ∀ q, q ≤ old.length → a ≤ V q ∧ V q < b ∨ a ≤ V' q ∧ V' q < b → V' q = V q

/-- A smaller range of numbers is kept too. -/
theorem KeepsNumbers.mono {a' b' : ℕ} (hV : KeepsNumbers old V V' a b) (ha : a ≤ a') (hb : b' ≤ b) :
    KeepsNumbers old V V' a' b' := by
  intro q hq hin
  exact hV q hq (by omega)

/-- A settled place stays settled while the numbers are kept. -/
theorem Settled.congr {i : ℕ} (hs : Settled old V i) (hV : KeepsNumbers old V V' a b) (ha : a ≤ i)
    (hb : i < b) : Settled old V' i := by
  obtain ⟨p, hp, hpi, huniq⟩ := hs
  refine ⟨p, hp, by rw [hV p hp (Or.inl (by omega)), hpi], fun q hq hqi => ?_⟩
  refine huniq q hq ?_
  rw [← hV q hq (Or.inr (by omega)), hqi]

/-- So does a group. -/
theorem Group.congr (hg : Group old h I V a len) (hI : ∀ i, a ≤ i → i < a + len → I' i = I i)
    (hV : KeepsNumbers old V V' a (a + len)) : Group old h I' V' a len where
  positions := hg.positions.congr hI
  listed p hp := by
    rw [Lists.congr hI] at hp
    obtain ⟨i, ha, hb, -⟩ := id hp
    obtain ⟨hle, heq⟩ := hg.listed p hp
    rw [hV p (by omega) (Or.inl (by omega))]
    exact ⟨hle, heq⟩
  all q hq ha hb := by
    rw [Lists.congr hI]
    have heq := hV q hq (Or.inr ⟨ha, hb⟩)
    rw [heq] at ha hb
    exact hg.all q hq ha hb

/-- A layout depends on its own entries and numbers only. -/
theorem Layout.congr (hl : Layout old h I V a b) (hI : ∀ i, a ≤ i → i < b → I' i = I i)
    (hV : KeepsNumbers old V V' a b) : Layout old h I' V' a b := by
  induction hl with
  | nil a => exact Layout.nil a
  | run hIa hm hs hr ih =>
    have hle := hr.le
    refine Layout.run ?_ hm ?_ ?_
    · rw [hI _ (Nat.le_refl _) (by omega), hIa]
    · intro i ha hb
      exact (hs i ha hb).congr hV ha (by omega)
    · exact ih (fun i ha hb => hI i (by omega) hb) (hV.mono (by omega) (Nat.le_refl _))
  | group hm hg hr ih =>
    have hle := hr.le
    refine Layout.group hm (hg.congr ?_ (hV.mono (Nat.le_refl _) hle)) ?_
    · intro i ha hb
      exact hI i ha (by omega)
    · exact ih (fun i ha hb => hI i (by omega) hb) (hV.mono (by omega) (Nat.le_refl _))

end Layout

/-! ## Parts of a group -/

section Parts

variable {s s' s'' : Arrays} {a m l len v p q : ℕ}

/-- Equal numbers, and equal numbers `h` further on: the texts agree twice as far. -/
theorem Numbered.agree_double {V : ℕ → ℕ} (hn : Numbered old h V) (hp : p + h ≤ old.length)
    (hq : q + h ≤ old.length) (hpq : V p = V q) (hkey : V (p + h) = V (q + h)) :
    Agree old (h + h) p q :=
  (hn.agree p q (by omega) (by omega) hpq).add (hn.agree (p + h) (q + h) hp hq hkey)

/-- Equal numbers, and a smaller one `h` further on: the text is smaller. -/
theorem Numbered.lt_of_key {V : ℕ → ℕ} (hn : Numbered old h V) (hp : p + h ≤ old.length)
    (hq : q + h ≤ old.length) (hpq : V p = V q) (hkey : V (p + h) < V (q + h)) :
    old.drop p < old.drop q :=
  (hn.agree p q (by omega) (by omega) hpq).lt (hn.lt (p + h) (q + h) hp hq hkey)

/-- Exchanging entries of the part makes no difference. -/
theorem Pending.rearranged (hp : Pending old h s a len v) (hr : Rearranged a (a + len) s.I s'.I)
    (hV : s'.V = s.V) : Pending old h s' a len v where
  numbered := by
    rw [hV]
    exact hp.numbered
  positions := hp.positions.rearranged hr
  listed p hl := by
    rw [lists_of_rearranged hr] at hl
    rw [hV]
    exact hp.listed p hl
  le := hp.le
  others q hq hl := by
    rw [lists_of_rearranged hr] at hl
    rw [hV]
    rcases hp.others q hq hl with hlow | ⟨hhigh, hlt⟩
    · exact Or.inl hlow
    · refine Or.inr ⟨hhigh, fun p hpl => hlt p ?_⟩
      rwa [lists_of_rearranged hr] at hpl

/-- The first entries of a part that has them in front are a part. -/
theorem Pending.left (hp : Pending old h s a (m + l) v)
    (hlt : ∀ p q, Lists s.I a m p → Lists s.I (a + m) l q → old.drop p < old.drop q) :
    Pending old h s a m v where
  numbered := hp.numbered
  positions := hp.positions.left
  listed p hl := hp.listed p (lists_add.mpr (Or.inl hl))
  le := by
    have hle := hp.le
    omega
  others q hq hl := by
    have hle := hp.le
    by_cases hr : Lists s.I (a + m) l q
    · -- on the right: it keeps the number of the whole group for now
      obtain ⟨-, hqv⟩ := hp.listed q (lists_add.mpr (Or.inr hr))
      obtain ⟨i, hia, hib, -⟩ := id hr
      exact Or.inr ⟨by omega, fun p hpl => hlt p q hpl hr⟩
    · have hnot : ¬Lists s.I a (m + l) q := by
        intro hin
        rcases lists_add.mp hin with h1 | h1
        · exact hl h1
        · exact hr h1
      rcases hp.others q hq hnot with hlow | ⟨hhigh, hlt'⟩
      · exact Or.inl hlow
      · exact Or.inr ⟨by omega, fun p hpl => hlt' p (lists_add.mpr (Or.inl hpl))⟩

/-- The rest is a part once the first entries have been divided. -/
theorem Pending.right (hp : Pending old h s a (m + l) v) (hd : Divided old h s a m s') :
    Pending old h s' (a + m) l v := by
  have hI : ∀ i, a + m ≤ i → i < a + m + l → s'.I i = s.I i := by
    intro i ha _
    exact hd.keepsI i (by omega)
  refine ⟨hd.numbered, hp.positions.right.congr hI, ?_, ?_, ?_⟩
  · intro p hl
    rw [Lists.congr hI] at hl
    rw [hd.keepsV p (hp.positions.not_lists_left hl)]
    exact hp.listed p (lists_add.mpr (Or.inr hl))
  · have hle := hp.le
    omega
  · intro q hq hnot
    rw [Lists.congr hI] at hnot
    by_cases hl : Lists s.I a m q
    · exact Or.inl (hd.within q hl).2
    · rw [hd.keepsV q hl]
      have hnot' : ¬Lists s.I a (m + l) q := by
        intro hin
        rcases lists_add.mp hin with h1 | h1
        · exact hl h1
        · exact hnot h1
      rcases hp.others q hq hnot' with hlow | ⟨hhigh, hlt⟩
      · exact Or.inl (by omega)
      · refine Or.inr ⟨by omega, fun p hpl => hlt p ?_⟩
        rw [Lists.congr hI] at hpl
        exact lists_add.mpr (Or.inr hpl)

/-- An empty part is divided. -/
theorem Pending.divided_nil (hp : Pending old h s a 0 v) : Divided old h s a 0 s where
  keepsI _ _ := rfl
  keepsV _ _ := rfl
  within _ hl := absurd hl not_lists_zero
  numbered := hp.numbered
  agree _ _ hl _ := absurd hl not_lists_zero
  layout := Layout.nil a

/-- **Parts next to each other.** -/
theorem Divided.append (hp : Pending old h s a (m + l) v) (hd : Divided old h s a m s')
    (hd' : Divided old h s' (a + m) l s'') : Divided old h s a (m + l) s'' := by
  have hright := hp.right hd
  have hI : ∀ i, a + m ≤ i → i < a + m + l → s'.I i = s.I i := by
    intro i ha _
    exact hd.keepsI i (by omega)
  -- the second step does not touch the positions of the first
  have hleft : ∀ p, Lists s.I a m p → s''.V p = s'.V p := by
    intro p hl
    refine hd'.keepsV p ?_
    rw [Lists.congr hI]
    exact hp.positions.not_lists_right hl
  refine ⟨?_, ?_, ?_, hd'.numbered, ?_, ?_⟩
  · intro i hi
    rw [hd'.keepsI i (by omega), hd.keepsI i (by omega)]
  · intro q hq
    rw [lists_add, not_or] at hq
    rw [hd'.keepsV q (by rw [Lists.congr hI]; exact hq.2), hd.keepsV q hq.1]
  · intro p hl
    rcases lists_add.mp hl with hl | hr
    · rw [hleft p hl]
      obtain ⟨ha, hb⟩ := hd.within p hl
      omega
    · obtain ⟨ha, hb⟩ := hd'.within p (by rwa [Lists.congr hI])
      omega
  · intro p q hpl hql heq
    rcases lists_add.mp hpl with hpl | hpr
    · rcases lists_add.mp hql with hql | hqr
      · rw [hleft p hpl, hleft q hql] at heq
        exact hd.agree p q hpl hql heq
      · rw [hleft p hpl] at heq
        obtain ⟨-, hpb⟩ := hd.within p hpl
        obtain ⟨hqa, -⟩ := hd'.within q (by rwa [Lists.congr hI])
        omega
    · rcases lists_add.mp hql with hql | hqr
      · rw [hleft q hql] at heq
        obtain ⟨hpa, -⟩ := hd'.within p (by rwa [Lists.congr hI])
        obtain ⟨-, hqb⟩ := hd.within q hql
        omega
      · exact hd'.agree p q (by rwa [Lists.congr hI]) (by rwa [Lists.congr hI]) heq
  · rw [← Nat.add_assoc]
    refine (hd.layout.congr (fun i _ hi => hd'.keepsI i (by omega)) ?_).append hd'.layout
    intro q hq hin
    by_cases hl : Lists s'.I (a + m) l q
    · -- a position on the right has no number on the left, neither before nor after
      obtain ⟨hqa, -⟩ := hd'.within q hl
      obtain ⟨-, hqv⟩ := hright.listed q hl
      have hle := hright.le
      obtain ⟨i, hia, hib, -⟩ := hl
      omega
    · exact hd'.keepsV q hl

/-- A part may be rearranged before it is divided. -/
theorem Divided.of_rearranged (hr : Rearranged a (a + len) s.I s'.I) (hV : s'.V = s.V)
    (hd : Divided old h s' a len s'') : Divided old h s a len s'' where
  keepsI i hi := by rw [hd.keepsI i hi, hr.outside hi]
  keepsV q hq := by
    rw [← lists_of_rearranged hr] at hq
    rw [hd.keepsV q hq, hV]
  within p hl := by
    rw [← lists_of_rearranged hr] at hl
    exact hd.within p hl
  numbered := hd.numbered
  agree p q hp hq heq := by
    rw [← lists_of_rearranged hr] at hp hq
    exact hd.agree p q hp hq heq
  layout := hd.layout

/-- Nobody else has a number of the part. -/
theorem Pending.lists_of_mem (hp : Pending old h s a len v)
    (hout : ∀ q, ¬Lists s.I a len q → s'.V q = s.V q) {q : ℕ} (hq : q ≤ old.length)
    (ha : a ≤ s'.V q) (hb : s'.V q < a + len) : Lists s.I a len q := by
  by_contra hl
  rw [hout q hl] at ha hb
  have hclear := (hp.others q hq hl).imp_right And.left
  omega

/-- The numbers stay in the order of the texts when the part gets the last number of its range. -/
theorem Pending.renumbered (hp : Pending old h s a len v) (hlen : 0 < len)
    (hin : ∀ p, Lists s.I a len p → s'.V p = a + len - 1)
    (hout : ∀ q, ¬Lists s.I a len q → s'.V q = s.V q) : Numbered old h s'.V := by
  have hle := hp.le
  refine ⟨?_, ?_, ?_⟩
  · intro p hple
    by_cases hl : Lists s.I a len p
    · obtain ⟨-, hpv⟩ := hp.listed p hl
      have hpn := hp.numbered.le p hple
      rw [hin p hl]
      omega
    · rw [hout p hl]
      exact hp.numbered.le p hple
  · intro p q hple hqle hlt
    by_cases hpl : Lists s.I a len p
    · rw [hin p hpl] at hlt
      by_cases hql : Lists s.I a len q
      · rw [hin q hql] at hlt
        omega
      · rw [hout q hql] at hlt
        rcases hp.others q hqle hql with hlow | ⟨-, hsuf⟩
        · omega
        · exact hsuf p hpl
    · rw [hout p hpl] at hlt
      by_cases hql : Lists s.I a len q
      · rw [hin q hql] at hlt
        have hclear := (hp.others p hple hpl).imp_right And.left
        obtain ⟨-, hqv⟩ := hp.listed q hql
        exact hp.numbered.lt p q hple hqle (by omega)
      · rw [hout q hql] at hlt
        exact hp.numbered.lt p q hple hqle hlt
  · intro p q hple hqle heq
    by_cases hpl : Lists s.I a len p
    · have hql : Lists s.I a len q := by
        refine hp.lists_of_mem hout hqle ?_ ?_ <;> rw [← heq, hin p hpl] <;> omega
      obtain ⟨-, hpv⟩ := hp.listed p hpl
      obtain ⟨-, hqv⟩ := hp.listed q hql
      exact hp.numbered.agree p q hple hqle (hpv.trans hqv.symm)
    · have hql : ¬Lists s.I a len q := by
        intro hql
        refine hpl (hp.lists_of_mem hout hple ?_ ?_) <;> rw [heq, hin q hql] <;> omega
      rw [hout p hpl, hout q hql] at heq
      exact hp.numbered.agree p q hple hqle heq

/-- A part of one position is settled. -/
theorem Pending.layout_single (hp : Pending old h s a 1 v)
    (hI : s'.I = Function.update s.I a (-1)) (hin : ∀ p, Lists s.I a 1 p → s'.V p = a + 1 - 1)
    (hout : ∀ q, ¬Lists s.I a 1 q → s'.V q = s.V q) :
    Layout old (h + h) s'.I s'.V a (a + 1) := by
  refine Layout.run (m := 1) ?_ Nat.one_pos ?_ (Layout.nil _)
  · rw [hI, Function.update_self, Nat.cast_one]
  · intro i hia hib
    obtain rfl : i = a := by omega
    obtain ⟨p, hpi⟩ := hp.positions.entry i hia hib
    have hpl : Lists s.I i 1 p := ⟨i, hia, hib, hpi⟩
    obtain ⟨hple, -⟩ := hp.listed p hpl
    refine ⟨p, by omega, hin p hpl, fun q hq hqi => ?_⟩
    obtain ⟨j, hja, hjb, hqj⟩ := hp.lists_of_mem hout hq (by omega) (by omega)
    obtain rfl : j = i := by omega
    exact Int.ofNat_inj.mp (hqj.symm.trans hpi)

/-- A larger part is a group of the next round. -/
theorem Pending.layout_group (hp : Pending old h s a len v) (hlen : 1 < len)
    (hagree : ∀ p q, Lists s.I a len p → Lists s.I a len q → Agree old (h + h) p q)
    (hI : s'.I = s.I) (hin : ∀ p, Lists s.I a len p → s'.V p = a + len - 1)
    (hout : ∀ q, ¬Lists s.I a len q → s'.V q = s.V q) :
    Layout old (h + h) s'.I s'.V a (a + len) := by
  refine Layout.group (by omega) ⟨?_, ?_, ?_⟩ (Layout.nil _)
  · rw [hI]
    exact hp.positions
  · intro p hpl
    rw [hI] at hpl
    refine ⟨?_, by rw [hin p hpl]; omega⟩
    -- another position of the part: only one of the two could be near the end
    obtain ⟨i, hia, hib, hpi⟩ := id hpl
    obtain ⟨j, hja, hjb, hji⟩ : ∃ j, a ≤ j ∧ j < a + len ∧ j ≠ i := by
      by_cases hia' : i = a
      · exact ⟨a + 1, by omega, by omega, by omega⟩
      · exact ⟨a, by omega, by omega, by omega⟩
    obtain ⟨q, hqj⟩ := hp.positions.entry j hja hjb
    have hql : Lists s.I a len q := ⟨j, hja, hjb, hqj⟩
    have hne : p ≠ q := by
      rintro rfl
      exact hji (hp.positions.inj j i hja hjb hia hib (hqj.trans hpi.symm))
    obtain ⟨hple, -⟩ := hp.listed p hpl
    obtain ⟨hqle, -⟩ := hp.listed q hql
    exact (hagree p q hpl hql).add_le hne (by omega) (by omega)
  · intro q hq ha hb
    rw [hI]
    exact hp.lists_of_mem hout hq ha hb

/-- **A group of its own.** A part whose positions share twice as many bytes gets its own number; a
single position has found its place. -/
theorem Pending.close (hp : Pending old h s a len v) (hlen : 0 < len)
    (hagree : ∀ p q, Lists s.I a len p → Lists s.I a len q → Agree old (h + h) p q)
    (hI : s'.I = if len = 1 then Function.update s.I a (-1) else s.I)
    (hin : ∀ p, Lists s.I a len p → s'.V p = a + len - 1)
    (hout : ∀ q, ¬Lists s.I a len q → s'.V q = s.V q) : Divided old h s a len s' := by
  refine ⟨?_, hout, ?_, hp.renumbered hlen hin hout, fun p q hpl hql _ => hagree p q hpl hql, ?_⟩
  · intro i hi
    rw [hI]
    split
    · rw [Function.update_of_ne]
      rintro rfl
      omega
    · rfl
  · intro p hl
    rw [hin p hl]
    omega
  · by_cases hone : len = 1
    · subst hone
      rw [if_pos rfl] at hI
      exact hp.layout_single hI hin hout
    · rw [if_neg hone] at hI
      exact hp.layout_group (by omega) hagree hI hin hout

end Parts

end OpenRecovery.ImgDiff
