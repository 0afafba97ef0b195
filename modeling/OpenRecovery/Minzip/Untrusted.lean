import OpenRecovery.Minzip.Directory

/-!
# Untrusted offsets and lengths

Every read of `parseZipArchive` is checked before it is made, but the check of a local header adds
`LOCHDR` in `uintptr_t`: for a header in the last bytes of the address space the sum is small again
(`parseZipArchive_inside_iff`). The lengths and the offset of an entry are unsigned in the archive
and signed in the entry, and the test of the data does not see a sign
(`parseZipArchive_bounds_iff`).
-/

set_option autoImplicit false

namespace OpenRecovery.Minzip

open OpenRecovery.Storage
open OpenRecovery.ApplyPatch (Decode)

/-! ## Reads -/

section Reads

variable {map : MemMapping} {p n : Nat}

/-- The `n` bytes at `p` lie in the map. -/
def Inside (map : MemMapping) (p n : Nat) : Prop := map.addr ≤ p ∧ p + n ≤ map.stop

/-- A part of a range inside the map. -/
theorem Inside.sub {o k : Nat} (h : Inside map p n) (hk : o + k ≤ n) :
    Inside map (p + o) k := by
  obtain ⟨hlo, hhi⟩ := h
  exact ⟨by omega, by omega⟩

/-- Bytes are read exactly inside the map. -/
theorem read_some_iff : (∃ b, map.read p n = some b) ↔ Inside map p n := by
  rw [MemMapping.read, slice, Inside, MemMapping.stop]
  split
  · exact iff_of_true ⟨_, rfl⟩ (by omega)
  · refine iff_of_false ?_ (by omega)
    rintro ⟨b, hb⟩
    cases hb

/-- Two bytes inside the map are read. -/
theorem Inside.get2LE (h : Inside map p 2) : ∃ v, map.get2LE p = some v := by
  obtain ⟨b, hb⟩ := read_some_iff.mpr h
  exact ⟨leNat b, by rw [MemMapping.get2LE, hb]; rfl⟩

/-- Four bytes inside the map are read. -/
theorem Inside.get4LE (h : Inside map p 4) : ∃ v, map.get4LE p = some v := by
  obtain ⟨b, hb⟩ := read_some_iff.mpr h
  exact ⟨leNat b, by rw [MemMapping.get4LE, hb]; rfl⟩

theorem get2LE_none (h : ¬ Inside map p 2) : map.get2LE p = none := by
  cases hb : map.read p 2 with
  | none => rw [MemMapping.get2LE, hb]; rfl
  | some b => exact absurd (read_some_iff.mp ⟨b, hb⟩) h

theorem get4LE_none (h : ¬ Inside map p 4) : map.get4LE p = none := by
  cases hb : map.read p 4 with
  | none => rw [MemMapping.get4LE, hb]; rfl
  | some b => exact absurd (read_some_iff.mp ⟨b, hb⟩) h

end Reads

section Safe

variable {α β : Type}

/-- No read outside the map. -/
def Safe (d : Decode α) : Prop := d ≠ .fault

/-- Two steps, one after the other. -/
theorem Safe.bind {x : Decode α} {f : α → Decode β} (hx : Safe x)
    (hf : ∀ a, x = .ok a → Safe (f a)) : Safe (x >>= f) := by
  cases x with
  | ok a => exact hf a rfl
  | failed => exact nofun
  | fault => exact absurd rfl hx
  | hang => exact nofun

theorem safe_failed : Safe (.failed : Decode α) := nofun

theorem safe_ok (a : α) : Safe (.ok a) := nofun

/-- A read that is made inside the map. -/
theorem safe_access {x : Option α} {f : α → Decode β} (hx : ∃ a, x = some a)
    (hf : ∀ a, Safe (f a)) : Safe (Decode.ofAccess x >>= f) := by
  obtain ⟨a, rfl⟩ := hx
  exact hf a

end Safe

/-! ## The end of the central directory -/

section Directory

variable {map : MemMapping}

/-- The scan stays between the start of the map and the last place for an end record. -/
theorem findEnd_spec {k : Nat} (hk : k + endhdr ≤ map.bytes.length) :
    Safe (findEnd map k) ∧ ∀ ptr, findEnd map k = .ok ptr → Inside map ptr endhdr := by
  induction k with
  | zero =>
      have hin : Inside map map.addr endhdr := ⟨Nat.le_refl _, by rw [MemMapping.stop]; omega⟩
      obtain ⟨sig, hsig⟩ := (hin.sub (o := 0) (k := 4) (by decide)).get4LE
      rw [Nat.add_zero] at hsig
      rw [findEnd, hsig, Decode.ofAccess_some, Decode.ok_bind]
      split
      · exact ⟨safe_ok _, fun ptr h => by cases h; exact hin⟩
      · exact ⟨safe_failed, nofun⟩
  | succ k ih =>
      have hin : Inside map (map.addr + (k + 1)) endhdr := ⟨by omega, by rw [MemMapping.stop]; omega⟩
      obtain ⟨sig, hsig⟩ := (hin.sub (o := 0) (k := 4) (by decide)).get4LE
      rw [Nat.add_zero] at hsig
      rw [findEnd, hsig, Decode.ofAccess_some, Decode.ok_bind]
      split
      · exact ⟨safe_ok _, fun ptr h => by cases h; exact hin⟩
      · exact ih (by omega)

/-- The search for the directory stays inside a map that has room for its end record. -/
theorem parseDirectory_safe (hlen : endhdr ≤ map.bytes.length) : Safe (parseDirectory map) := by
  have hin : Inside map map.addr endhdr := ⟨Nat.le_refl _, by rw [MemMapping.stop]; omega⟩
  have hlast : map.bytes.length - endhdr + endhdr ≤ map.bytes.length := by omega
  obtain ⟨hsafe, hend⟩ := findEnd_spec hlast
  obtain ⟨val, hval⟩ := (hin.sub (o := 0) (k := 4) (by decide)).get4LE
  rw [Nat.add_zero] at hval
  rw [parseDirectory, hval, Decode.ofAccess_some, Decode.ok_bind]
  split
  · exact safe_failed
  · refine hsafe.bind fun ptr hptr => ?_
    have hrecord := hend ptr hptr
    refine safe_access (hrecord.sub (by decide)).get2LE fun numEntries => ?_
    refine safe_access (hrecord.sub (by decide)).get4LE fun cdOffset => ?_
    split
    · exact safe_failed
    · exact safe_ok _

end Directory

/-! ## One record -/

section Record

variable {iop : SafeIop} {map : MemMapping} {ptr : Nat}

/-- The head of a record is read only if it lies inside the map. -/
theorem parseHead_safe (hptr : map.addr ≤ ptr) : Safe (parseHead map ptr) := by
  rw [parseHead]
  split
  · exact safe_failed
  · have hin : Inside map ptr cenhdr := ⟨hptr, by omega⟩
    refine safe_access (hin.sub (o := 0) (by decide)).get4LE fun sig => ?_
    split
    · exact safe_failed
    · refine safe_access (hin.sub (by decide)).get4LE fun localHdrOffset => ?_
      refine safe_access (hin.sub (by decide)).get2LE fun fileNameLen => ?_
      refine safe_access (hin.sub (by decide)).get2LE fun extraLen => ?_
      refine safe_access (hin.sub (by decide)).get2LE fun commentLen => ?_
      split
      · exact safe_failed
      · refine safe_access (read_some_iff.mpr ⟨by omega, by omega⟩) fun fileName => ?_
        split
        · exact safe_ok _
        · exact safe_failed

/-- A record whose head was read lies in the map. -/
theorem inside_of_parseHead {h : RecordHead} (hptr : map.addr ≤ ptr)
    (hh : parseHead map ptr = .ok h) : Inside map ptr cenhdr := by
  rw [parseHead] at hh
  split at hh
  · cases hh
  · exact ⟨hptr, by omega⟩

/-- The local header of a record starts before the end of the address space and ends behind it, what
is left of the sum looks as if it were in the map, and the read of the signature leaves the map or
finds what it looks for. -/
def LocalOutside (map : MemMapping) (localHdrOffset : Nat) : Prop :=
  let localHdr := map.addr + localHdrOffset
  localHdr < 2 ^ 32 ∧ 2 ^ 32 ≤ localHdr + lochdr ∧ localHdr + lochdr - 2 ^ 32 ≤ map.stop ∧
    (map.stop < localHdr + 4 ∨ map.get4LE localHdr = some locsig)

/-- A local header whose end does not wrap is read inside the map. -/
theorem parseLocal_safe (hadd : ∀ a b, iop.addUnsigned a b = decide (a + b < 2 ^ 32))
    {localHdrOffset : Nat} (hend : map.addr + localHdrOffset + lochdr < 2 ^ 32) (compLen : Nat) :
    Safe (parseLocal iop map localHdrOffset compLen) := by
  have hfit : map.addr + localHdrOffset < 2 ^ 32 := by omega
  rw [parseLocal, hadd, if_pos (decide_eq_true hfit)]
  simp only [Nat.mod_eq_of_lt hfit, Nat.mod_eq_of_lt hend]
  split
  · exact safe_failed
  · have hin : Inside map (map.addr + localHdrOffset) lochdr := ⟨by omega, by omega⟩
    refine safe_access (hin.sub (o := 0) (by decide)).get4LE fun sig => ?_
    split
    · exact safe_failed
    · refine safe_access (hin.sub (by decide)).get2LE fun nameLen => ?_
      refine safe_access (hin.sub (by decide)).get2LE fun extra => ?_
      split
      · split
        · exact safe_failed
        · exact safe_ok _
      · exact safe_failed

/-- If the end wraps, the length of the extra field is not in the map. -/
theorem parseLocal_wrapped (hadd : ∀ a b, iop.addUnsigned a b = decide (a + b < 2 ^ 32))
    (hstop : map.stop < 2 ^ 32) {localHdrOffset : Nat} (hfit : map.addr + localHdrOffset < 2 ^ 32)
    (hwrap : 2 ^ 32 ≤ map.addr + localHdrOffset + lochdr) (compLen : Nat) :
    parseLocal iop map localHdrOffset compLen = .fault ↔
      map.addr + localHdrOffset + lochdr - 2 ^ 32 ≤ map.stop ∧
        (map.stop < map.addr + localHdrOffset + 4 ∨
          map.get4LE (map.addr + localHdrOffset) = some locsig) := by
  have hmod : (map.addr + localHdrOffset + lochdr) % 2 ^ 32 =
      map.addr + localHdrOffset + lochdr - 2 ^ 32 := by
    rw [lochdr] at *
    omega
  rw [parseLocal, hadd, if_pos (decide_eq_true hfit)]
  simp only [Nat.mod_eq_of_lt hfit, hmod]
  by_cases hpass : map.addr + localHdrOffset + lochdr - 2 ^ 32 ≤ map.stop
  · rw [if_neg (Nat.not_lt.mpr hpass)]
    by_cases hread : map.stop < map.addr + localHdrOffset + 4
    · rw [get4LE_none (fun h => absurd h.2 (by omega))]
      exact iff_of_true rfl ⟨hpass, .inl hread⟩
    · obtain ⟨sig, hsig⟩ : ∃ sig, map.get4LE (map.addr + localHdrOffset) = some sig :=
        Inside.get4LE ⟨by omega, by omega⟩
      rw [hsig, Decode.ofAccess_some, Decode.ok_bind]
      by_cases heq : sig = locsig
      · rw [if_neg (not_not_intro heq), heq]
        refine iff_of_true ?_ ⟨hpass, .inr rfl⟩
        have hextra : map.get2LE (map.addr + localHdrOffset + 28) = none := by
          apply get2LE_none
          rintro ⟨-, hhi⟩
          rw [lochdr] at hwrap
          omega
        rw [hextra]
        cases map.get2LE (map.addr + localHdrOffset + 26) <;> rfl
      · rw [if_pos heq]
        refine iff_of_false (by rintro ⟨⟩) ?_
        rintro ⟨-, hout | hsame⟩
        · exact hread hout
        · exact heq (Option.some.inj hsame)
  · rw [if_pos (Nat.lt_of_not_le hpass)]
    exact iff_of_false (by rintro ⟨⟩) fun h => hpass h.1

/-- The local header is read outside exactly if the sum wraps around. -/
theorem parseLocal_fault_iff (hadd : ∀ a b, iop.addUnsigned a b = decide (a + b < 2 ^ 32))
    (hstop : map.stop < 2 ^ 32) (localHdrOffset compLen : Nat) :
    parseLocal iop map localHdrOffset compLen = .fault ↔ LocalOutside map localHdrOffset := by
  by_cases hend : map.addr + localHdrOffset + lochdr < 2 ^ 32
  · exact iff_of_false (parseLocal_safe hadd hend compLen) fun h => absurd h.2.1 (by omega)
  · by_cases hfit : map.addr + localHdrOffset < 2 ^ 32
    · rw [parseLocal_wrapped hadd hstop hfit (by omega)]
      exact ⟨fun h => ⟨hfit, by omega, h⟩, fun h => h.2.2⟩
    · -- `safe_add` reports the overflow
      rw [parseLocal, hadd, if_neg (by simpa using hfit)]
      exact iff_of_false (by rintro ⟨⟩) fun h => hfit h.1

/-- The record is one whose local header is looked for, and there it goes wrong. -/
def Fooled (map : MemMapping) (ptr : Nat) : Prop :=
  ∃ h versionMadeBy, parseHead map ptr = .ok h ∧ map.get2LE (ptr + 4) = some versionMadeBy ∧
    (versionMadeBy / 256 * 256 = 0 ∨ versionMadeBy / 256 * 256 = cenvemUnix) ∧
    LocalOutside map h.localHdrOffset

/-- The rest of the record is read outside exactly with its local header. -/
theorem parseTail_fault_iff (hadd : ∀ a b, iop.addUnsigned a b = decide (a + b < 2 ^ 32))
    (hstop : map.stop < 2 ^ 32) (hin : Inside map ptr cenhdr) (h : RecordHead) :
    parseTail iop map ptr h = .fault ↔
      ∃ versionMadeBy, map.get2LE (ptr + 4) = some versionMadeBy ∧
        (versionMadeBy / 256 * 256 = 0 ∨ versionMadeBy / 256 * 256 = cenvemUnix) ∧
        LocalOutside map h.localHdrOffset := by
  obtain ⟨compLen, hcomp⟩ := (hin.sub (o := 20) (k := 4) (by decide)).get4LE
  obtain ⟨uncompLen, huncomp⟩ := (hin.sub (o := 24) (k := 4) (by decide)).get4LE
  obtain ⟨compression, hhow⟩ := (hin.sub (o := 10) (k := 2) (by decide)).get2LE
  obtain ⟨modTime, htime⟩ := (hin.sub (o := 12) (k := 4) (by decide)).get4LE
  obtain ⟨crc32, hcrc⟩ := (hin.sub (o := 16) (k := 4) (by decide)).get4LE
  obtain ⟨versionMadeBy, hversion⟩ := (hin.sub (o := 4) (k := 2) (by decide)).get2LE
  obtain ⟨attributes, hattr⟩ := (hin.sub (o := 38) (k := 4) (by decide)).get4LE
  rw [parseTail, hcomp, huncomp, hhow, htime, hcrc, hversion, hattr]
  simp only [Decode.ofAccess_some, Decode.ok_bind, Option.some.injEq, exists_eq_left']
  by_cases hv : versionMadeBy / 256 * 256 = 0 ∨ versionMadeBy / 256 * 256 = cenvemUnix
  · rw [if_neg (by simpa only [not_and_or, not_not] using hv),
      ← parseLocal_fault_iff hadd hstop h.localHdrOffset compLen]
    cases parseLocal iop map h.localHdrOffset compLen with
    | ok offset => exact iff_of_false (by rintro ⟨⟩) fun h => by cases h.2
    | failed => exact iff_of_false (by rintro ⟨⟩) fun h => by cases h.2
    | fault => exact iff_of_true rfl ⟨hv, rfl⟩
    | hang => exact iff_of_false (by rintro ⟨⟩) fun h => by cases h.2
  · rw [if_pos (not_or.mp hv)]
    exact iff_of_false (by rintro ⟨⟩) fun h => hv h.1

/-- A record is read outside exactly if it fools the test. -/
theorem parseEntry_fault_iff (hadd : ∀ a b, iop.addUnsigned a b = decide (a + b < 2 ^ 32))
    (hstop : map.stop < 2 ^ 32) (hptr : map.addr ≤ ptr) :
    parseEntry iop map ptr = .fault ↔ Fooled map ptr := by
  rw [parseEntry_eq, Fooled]
  cases hhead : parseHead map ptr with
  | failed => exact iff_of_false nofun nofun
  | fault => exact absurd hhead (parseHead_safe hptr)
  | hang => exact absurd hhead (parseHead_halts map ptr)
  | ok h =>
      have htail := parseTail_fault_iff hadd hstop (inside_of_parseHead hptr hhead) h
      simp only [Decode.ok_bind, Decode.ok.injEq, exists_and_left, exists_eq_left', ← htail]
      cases parseTail iop map ptr h with
      | ok e => exact iff_of_false nofun nofun
      | failed => exact iff_of_false nofun nofun
      | fault => exact iff_of_true rfl rfl
      | hang => exact iff_of_false nofun nofun

end Record

/-! ## The loop -/

section Loop

variable {iop : SafeIop} {map : MemMapping}

/-- The loop goes forward. -/
theorem Records.le {ptr stop : Nat} {es : List ZipEntry} (h : Records iop map ptr es stop) :
    ptr ≤ stop := by
  induction h with
  | nil ptr => exact Nat.le_refl ptr
  | @cons ptr next stop e es he rest ih =>
      rw [parseEntry_eq] at he
      obtain ⟨head, -, he⟩ := Decode.ok_of_bind he
      obtain ⟨e', -, he⟩ := Decode.ok_of_bind he
      cases he
      refine Nat.le_trans ?_ ih
      rw [RecordHead.next]
      omega

/-- The loop faults at a record that it comes to. -/
theorem parseEntries_fault_iff {n ptr : Nat} (entries : List ZipEntry) :
    parseEntries iop map n ptr entries = .fault ↔
      ∃ es p, Records iop map ptr es p ∧ es.length < n ∧ parseEntry iop map p = .fault := by
  induction n generalizing ptr entries with
  | zero =>
      refine iff_of_false (by rintro ⟨⟩) ?_
      rintro ⟨es, p, -, hlt, -⟩
      exact absurd hlt (Nat.not_lt_zero _)
  | succ n ih =>
      rw [parseEntries]
      cases hentry : parseEntry iop map ptr with
      | failed =>
          refine iff_of_false (by rintro ⟨⟩) ?_
          rintro ⟨es, p, hrecords, -, hfault⟩
          cases hrecords with
          | nil => rw [hentry] at hfault; cases hfault
          | cons he _ => rw [hentry] at he; cases he
      | fault => exact iff_of_true rfl ⟨[], ptr, .nil ptr, Nat.succ_pos n, hentry⟩
      | hang => exact absurd hentry (parseEntry_halts iop map ptr)
      | ok r =>
          obtain ⟨e, next⟩ := r
          rw [Decode.ok_bind]
          simp only [ih]
          constructor
          · rintro ⟨es, p, hrecords, hlt, hfault⟩
            exact ⟨e :: es, p, .cons hentry hrecords, Nat.succ_lt_succ hlt, hfault⟩
          · rintro ⟨es, p, hrecords, hlt, hfault⟩
            cases hrecords with
            | nil => rw [hentry] at hfault; cases hfault
            | cons he rest =>
                rw [hentry] at he
                cases he
                exact ⟨_, p, rest, Nat.lt_of_succ_lt_succ hlt, hfault⟩

/-- The loop of `parseZipArchive` comes to a record at `ptr`. -/
def Visited (iop : SafeIop) (map : MemMapping) (ptr : Nat) : Prop :=
  ∃ n off es, parseDirectory map = .ok (n, off) ∧ Records iop map (map.addr + off) es ptr ∧
    es.length < n

/-- The records lie behind the start of the map. -/
theorem Visited.le {ptr : Nat} (h : Visited iop map ptr) : map.addr ≤ ptr := by
  obtain ⟨n, off, es, -, hrecords, -⟩ := h
  exact Nat.le_trans (Nat.le_add_right _ _) hrecords.le

end Loop

/-- Every read is inside the map, and the parser ends, unless it comes to a record that fools it. -/
theorem parseZipArchive_inside_iff {iop : SafeIop}
    (hadd : ∀ a b, iop.addUnsigned a b = decide (a + b < 2 ^ 32)) {map : MemMapping}
    (hlen : endhdr ≤ map.bytes.length) (hstop : map.stop < 2 ^ 32) :
    (Safe (parseZipArchive iop map) ∧ Halts (parseZipArchive iop map)) ↔
      ∀ ptr, Visited iop map ptr → ¬ Fooled map ptr := by
  have hiff : parseZipArchive iop map = .fault ↔ ∃ ptr, Visited iop map ptr ∧ Fooled map ptr := by
    rw [parseZipArchive_eq]
    cases hdir : parseDirectory map with
    | failed =>
        refine iff_of_false nofun ?_
        rintro ⟨ptr, ⟨n, off, es, hdir', -⟩, -⟩
        rw [hdir] at hdir'
        cases hdir'
    | fault => exact absurd hdir (parseDirectory_safe hlen)
    | hang => exact absurd hdir (parseDirectory_halts map)
    | ok d =>
        obtain ⟨n, off⟩ := d
        rw [Decode.ok_bind, parseEntries_fault_iff]
        constructor
        · rintro ⟨es, p, hrecords, hlt, hfault⟩
          have hvisited : Visited iop map p := ⟨n, off, es, hdir, hrecords, hlt⟩
          exact ⟨p, hvisited, (parseEntry_fault_iff hadd hstop hvisited.le).mp hfault⟩
        · rintro ⟨p, hvisited, hfooled⟩
          have hfault : parseEntry iop map p = .fault :=
            (parseEntry_fault_iff hadd hstop hvisited.le).mpr hfooled
          obtain ⟨n', off', es, hdir', hrecords, hlt⟩ := hvisited
          rw [hdir] at hdir'
          cases hdir'
          exact ⟨es, p, hrecords, hlt, hfault⟩
  constructor
  · rintro ⟨hsafe, -⟩ ptr hvisited hfooled
    exact hsafe (hiff.mpr ⟨ptr, hvisited, hfooled⟩)
  · intro h
    refine ⟨fun hfault => ?_, parseZipArchive_halts iop map⟩
    obtain ⟨ptr, hvisited, hfooled⟩ := hiff.mp hfault
    exact h ptr hvisited hfooled

namespace Sample

/-- An archive with one entry, whose record gives this offset of the local header. -/
def headerAt (localHdrOffset : Int) : MemMapping :=
  let localHdr := write4 locsig ++ List.replicate 26 0
  let record := write4 censig ++ List.replicate 24 0 ++ [1, 0] ++ List.replicate 12 0 ++
    write4 localHdrOffset ++ cstr "a"
  ⟨0x40000000, localHdr ++ record ++ write4 endsig ++ List.replicate 4 0 ++ [1, 0, 1, 0] ++
    write4 record.length ++ write4 localHdr.length ++ [0, 0]⟩

theorem iop_addUnsigned (a b : Nat) : iop.addUnsigned a b = decide (a + b < 2 ^ 32) := rfl

/-- The local header at the last byte of the address space. -/
theorem headerAt_end_fault : ¬ (endhdr ≤ (headerAt 0xbfffffff).bytes.length →
    (headerAt 0xbfffffff).stop < 2 ^ 32 →
      Safe (parseZipArchive iop (headerAt 0xbfffffff)) ∧
        Halts (parseZipArchive iop (headerAt 0xbfffffff))) := by
  unfold Safe Halts
  decide +kernel

/-- And one at its place. -/
theorem headerAt_start_inside :
    (Safe (parseZipArchive iop (headerAt 0)) ∧ Halts (parseZipArchive iop (headerAt 0))) ∧
      ∀ ptr, Visited iop (headerAt 0) ptr → ¬ Fooled (headerAt 0) ptr := by
  have hinside : Safe (parseZipArchive iop (headerAt 0)) ∧
      Halts (parseZipArchive iop (headerAt 0)) := by
    unfold Safe Halts
    decide +kernel
  exact ⟨hinside, (parseZipArchive_inside_iff iop_addUnsigned (by decide) (by decide)).mp hinside⟩

end Sample

/-! ## The data of an entry -/

section Bounds

variable {iop : SafeIop} {map : MemMapping}

/-- A number is not negative as a `long` exactly below `2 ^ 31`. -/
theorem long_nonneg_iff (n : Nat) : 0 ≤ long n ↔ n % 2 ^ 32 < 2 ^ 31 := by
  rw [long, signed]
  split <;> omega

/-- Such a number is converted as it is. -/
theorem long_of_lt {n : Nat} (h : n % 2 ^ 32 < 2 ^ 31) : long n = (n % 2 ^ 32 : Nat) := by
  rw [long, signed, if_pos h]

/-- Back to a `size_t`, only the residue matters. -/
theorem size_long (n : Nat) : size (long n) = n % 2 ^ 32 := by
  rw [size, long, signed]
  split <;> omega

/-- The data lies in the archive and the lengths are lengths. -/
structure InArchive (map : MemMapping) (e : ZipEntry) : Prop where
  offset : 0 ≤ e.offset
  compLen : 0 ≤ e.compLen
  uncompLen : 0 ≤ e.uncompLen
  data : e.offset + e.compLen ≤ map.bytes.length

/-- The fields of a record, and the sum that gives the offset of the data, are small enough for
`long`. -/
structure SmallFields (map : MemMapping) (ptr : Nat) : Prop where
  compLen : ∀ v, map.get4LE (ptr + 20) = some v → v < 2 ^ 31
  uncompLen : ∀ v, map.get4LE (ptr + 24) = some v → v < 2 ^ 31
  offset : ∀ localHdrOffset nameLen extra, map.get4LE (ptr + 42) = some localHdrOffset →
    map.get2LE ((map.addr + localHdrOffset) % 2 ^ 32 + 26) = some nameLen →
      map.get2LE ((map.addr + localHdrOffset) % 2 ^ 32 + 28) = some extra →
        (localHdrOffset + lochdr + nameLen + extra) % 2 ^ 32 < 2 ^ 31

/-- What `parseHead` has read and tested. -/
theorem parseHead_ok {ptr : Nat} {h : RecordHead} (hh : parseHead map ptr = .ok h) :
    map.get4LE (ptr + 42) = some h.localHdrOffset ∧ validFilename h.fileName = true := by
  rw [parseHead] at hh
  split at hh
  · cases hh
  · obtain ⟨sig, -, hh⟩ := Decode.ok_of_bind hh
    split at hh
    · cases hh
    · obtain ⟨localHdrOffset, hoff, hh⟩ := Decode.ok_of_bind hh
      obtain ⟨fileNameLen, -, hh⟩ := Decode.ok_of_bind hh
      obtain ⟨extraLen, -, hh⟩ := Decode.ok_of_bind hh
      obtain ⟨commentLen, -, hh⟩ := Decode.ok_of_bind hh
      split at hh
      · cases hh
      · obtain ⟨fileName, -, hh⟩ := Decode.ok_of_bind hh
        split at hh
        · rename_i hvalid
          cases hh
          exact ⟨Decode.some_of_ofAccess hoff, hvalid⟩
        · cases hh

/-- What `parseLocal` has tested. -/
theorem parseLocal_ok {localHdrOffset compLen : Nat} {offset : Int}
    (h : parseLocal iop map localHdrOffset compLen = .ok offset) :
    ∃ nameLen extra, map.get2LE ((map.addr + localHdrOffset) % 2 ^ 32 + 26) = some nameLen ∧
      map.get2LE ((map.addr + localHdrOffset) % 2 ^ 32 + 28) = some extra ∧
        offset = long (localHdrOffset + lochdr + nameLen + extra) ∧
          iop.addSigned offset (long compLen) = true ∧
            (size offset + compLen) % 2 ^ 32 ≤ map.bytes.length := by
  rw [parseLocal] at h
  split at h
  · simp only at h
    split at h
    · cases h
    · obtain ⟨sig, -, h⟩ := Decode.ok_of_bind h
      split at h
      · cases h
      · obtain ⟨nameLen, hname, h⟩ := Decode.ok_of_bind h
        obtain ⟨extra, hextra, h⟩ := Decode.ok_of_bind h
        split at h
        · rename_i hadd
          split at h
          · cases h
          · rename_i hfits
            cases h
            exact ⟨nameLen, extra, Decode.some_of_ofAccess hname, Decode.some_of_ofAccess hextra,
              rfl, hadd, Nat.le_of_not_lt hfits⟩
        · cases h
  · cases h

/-- The lengths of an entry that is accepted, from the fields of its record. -/
theorem parseTail_ok {ptr : Nat} {h : RecordHead} {e : ZipEntry}
    (he : parseTail iop map ptr h = .ok e) :
    ∃ compLen uncompLen, map.get4LE (ptr + 20) = some compLen ∧
      map.get4LE (ptr + 24) = some uncompLen ∧ e.compLen = long compLen ∧
        e.uncompLen = long uncompLen ∧
          parseLocal iop map h.localHdrOffset compLen = .ok e.offset := by
  rw [parseTail] at he
  obtain ⟨compLen, hcomp, he⟩ := Decode.ok_of_bind he
  obtain ⟨uncompLen, huncomp, he⟩ := Decode.ok_of_bind he
  obtain ⟨compression, -, he⟩ := Decode.ok_of_bind he
  obtain ⟨modTime, -, he⟩ := Decode.ok_of_bind he
  obtain ⟨crc32, -, he⟩ := Decode.ok_of_bind he
  obtain ⟨versionMadeBy, -, he⟩ := Decode.ok_of_bind he
  split at he
  · cases he
  · obtain ⟨attributes, -, he⟩ := Decode.ok_of_bind he
    obtain ⟨offset, hoffset, he⟩ := Decode.ok_of_bind he
    cases he
    exact ⟨compLen, uncompLen, Decode.some_of_ofAccess hcomp, Decode.some_of_ofAccess huncomp, rfl,
      rfl, hoffset⟩

/-- The length of an entry is a `long`. -/
theorem uncompLen_of_parseEntry {ptr next : Nat} {e : ZipEntry}
    (he : parseEntry iop map ptr = .ok (e, next)) : ∃ n, e.uncompLen = long n := by
  rw [parseEntry_eq] at he
  obtain ⟨h, -, he⟩ := Decode.ok_of_bind he
  obtain ⟨e', htail, he⟩ := Decode.ok_of_bind he
  cases he
  obtain ⟨compLen, uncompLen, -, -, -, huncomp, -⟩ := parseTail_ok htail
  exact ⟨uncompLen, huncomp⟩

/-- An entry lies in the archive exactly if its record has small fields. -/
theorem inArchive_iff (hadd : ∀ a b, iop.addSigned a b = decide (-2 ^ 31 ≤ a + b ∧ a + b < 2 ^ 31))
    {ptr next : Nat} {e : ZipEntry} (he : parseEntry iop map ptr = .ok (e, next)) :
    InArchive map e ↔ SmallFields map ptr := by
  rw [parseEntry_eq] at he
  obtain ⟨h, hhead, he⟩ := Decode.ok_of_bind he
  obtain ⟨e', htail, he⟩ := Decode.ok_of_bind he
  cases he
  have hoff := (parseHead_ok hhead).1
  obtain ⟨compLen, uncompLen, hcomp, huncomp, hcompLen, huncompLen, hlocal⟩ := parseTail_ok htail
  obtain ⟨nameLen, extra, hname, hextra, hoffset, hsum, hfits⟩ := parseLocal_ok hlocal
  have hcompMod : compLen % 2 ^ 32 = compLen := Nat.mod_eq_of_lt (get4LE_lt hcomp)
  have huncompMod : uncompLen % 2 ^ 32 = uncompLen := Nat.mod_eq_of_lt (get4LE_lt huncomp)
  constructor
  · rintro ⟨hoffset0, hcomp0, huncomp0, -⟩
    rw [hoffset, long_nonneg_iff] at hoffset0
    rw [hcompLen, long_nonneg_iff, hcompMod] at hcomp0
    rw [huncompLen, long_nonneg_iff, huncompMod] at huncomp0
    refine ⟨?_, ?_, ?_⟩
    · intro v hv
      rw [hcomp] at hv
      rwa [← Option.some.inj hv]
    · intro v hv
      rw [huncomp] at hv
      rwa [← Option.some.inj hv]
    · intro localHdrOffset nameLen' extra' hoff' hname' hextra'
      rw [hoff] at hoff'
      cases hoff'
      rw [hname] at hname'
      rw [hextra] at hextra'
      cases hname'
      cases hextra'
      exact hoffset0
  · rintro ⟨hcompSmall, huncompSmall, hoffsetSmall⟩
    have hcomp31 := hcompSmall compLen hcomp
    have huncomp31 := huncompSmall uncompLen huncomp
    have hoffset31 := hoffsetSmall _ _ _ hoff hname hextra
    have hcompEq : e.compLen = compLen := by
      rw [hcompLen, long_of_lt (by omega), hcompMod]
    have huncompEq : e.uncompLen = uncompLen := by
      rw [huncompLen, long_of_lt (by omega), huncompMod]
    have hoffsetEq := hoffset.trans (long_of_lt hoffset31)
    -- the signed sum fits, so the unsigned one is the same
    rw [← hcompLen, hadd, decide_eq_true_eq] at hsum
    rw [hoffset, size_long] at hfits
    exact ⟨by omega, by omega, by omega, by omega⟩

/-- The entries of the records are those of the places that the loop came to. -/
theorem Records.mem_iff {ptr stop : Nat} {records : List ZipEntry} {e : ZipEntry}
    (h : Records iop map ptr records stop) :
    e ∈ records ↔ ∃ es p next, Records iop map ptr es p ∧ es.length < records.length ∧
      parseEntry iop map p = .ok (e, next) := by
  induction h with
  | nil ptr => exact iff_of_false List.not_mem_nil fun ⟨_, _, _, _, hlt, _⟩ => absurd hlt (Nat.not_lt_zero _)
  | @cons ptr next stop e' es' he' rest ih =>
      rw [List.mem_cons, ih]
      constructor
      · rintro (rfl | ⟨es, p, next', hrecords, hlt, he⟩)
        · exact ⟨[], ptr, next, .nil ptr, Nat.succ_pos _, he'⟩
        · exact ⟨e' :: es, p, next', .cons he' hrecords, Nat.succ_lt_succ hlt, he⟩
      · rintro ⟨es, p, next', hrecords, hlt, he⟩
        cases hrecords with
        | nil =>
            rw [he'] at he
            cases he
            exact .inl rfl
        | cons hfirst hrecords =>
            rw [he'] at hfirst
            cases hfirst
            exact .inr ⟨_, p, next', hrecords, Nat.lt_of_succ_lt_succ hlt, he⟩

/-- An accepted archive accepted every record that the loop came to. -/
theorem Records.entry {ptr stop p : Nat} {records es : List ZipEntry}
    (h : Records iop map ptr records stop) (hes : Records iop map ptr es p)
    (hlt : es.length < records.length) : ∃ e next, parseEntry iop map p = .ok (e, next) := by
  induction hes generalizing records with
  | nil ptr =>
      cases h with
      | nil => exact absurd hlt (Nat.not_lt_zero _)
      | cons he _ => exact ⟨_, _, he⟩
  | cons he _ ih =>
      cases h with
      | nil => exact absurd hlt (Nat.not_lt_zero _)
      | cons he' rest =>
          rw [he] at he'
          cases he'
          exact ih rest (Nat.lt_of_succ_lt_succ hlt)

end Bounds

/-- Every entry of an accepted archive comes from a record. -/
theorem exists_record {iop : SafeIop} {map : MemMapping} {entries : List ZipEntry} {e : ZipEntry}
    (h : parseZipArchive iop map = .ok entries) (he : e ∈ entries) :
    ∃ ptr next, parseEntry iop map ptr = .ok (e, next) := by
  rw [parseZipArchive_eq] at h
  obtain ⟨⟨n, off⟩, hdir, hparse⟩ := Decode.ok_of_bind h
  obtain ⟨-, hsmall⟩ := parseDirectory_ok hdir
  obtain ⟨records, stop, hrecords, hn, rfl⟩ := records_of_parse hparse
  obtain ⟨hperm, -⟩ := insertEntries_spec records (show Sorted [] from .nil)
    (by rw [List.length_nil]; omega)
  rw [List.append_nil] at hperm
  obtain ⟨-, p, next, -, -, hentry⟩ := hrecords.mem_iff.mp (hperm.mem_iff.mp he)
  exact ⟨p, next, hentry⟩

/-- The entries of an accepted archive lie in it exactly if the fields of all records are small. -/
theorem parseZipArchive_bounds_iff {iop : SafeIop}
    (hadd : ∀ a b, iop.addSigned a b = decide (-2 ^ 31 ≤ a + b ∧ a + b < 2 ^ 31))
    {map : MemMapping} {entries : List ZipEntry} (h : parseZipArchive iop map = .ok entries) :
    (∀ e ∈ entries, InArchive map e) ↔ ∀ ptr, Visited iop map ptr → SmallFields map ptr := by
  rw [parseZipArchive_eq] at h
  obtain ⟨⟨n, off⟩, hdir, hparse⟩ := Decode.ok_of_bind h
  obtain ⟨-, hsmall⟩ := parseDirectory_ok hdir
  obtain ⟨records, stop, hrecords, hn, rfl⟩ := records_of_parse hparse
  obtain ⟨hperm, -⟩ := insertEntries_spec records (show Sorted [] from .nil)
    (by rw [List.length_nil]; omega)
  rw [List.append_nil] at hperm
  simp only [hperm.mem_iff]
  constructor
  · rintro hall ptr ⟨n', off', es, hdir', hes, hlt⟩
    rw [hdir] at hdir'
    cases hdir'
    obtain ⟨e, next, he⟩ := hrecords.entry hes (by omega)
    exact (inArchive_iff hadd he).mp (hall e (hrecords.mem_iff.mpr ⟨es, ptr, next, hes, by omega, he⟩))
  · intro hall e he
    obtain ⟨es, p, next, hes, hlt, hentry⟩ := hrecords.mem_iff.mp he
    exact (inArchive_iff hadd hentry).mpr (hall p ⟨n, off, es, hdir, hes, by omega⟩)

namespace Sample

theorem iop_addSigned (a b : Int) :
    iop.addSigned a b = decide (-2 ^ 31 ≤ a + b ∧ a + b < 2 ^ 31) := by
  simp [iop]

/-- One that says it has `2 ^ 32 - 1` bytes of data is accepted. -/
theorem archive_negative : ¬ ∀ entries,
    parseZipArchive iop ⟨0x40000000, archive 0 (-1) 0 []⟩ = .ok entries →
      ∀ e ∈ entries, InArchive ⟨0x40000000, archive 0 (-1) 0 []⟩ e := by
  intro h
  have hin := h [entry stored (-1) 0] (by decide +kernel) _ (List.mem_singleton_self _)
  exact absurd hin.compLen (by decide)

theorem archive_small :
    parseZipArchive iop ⟨0x40000000, archive 0 1 1 [7]⟩ = .ok [entry stored 1 1] ∧
      ∀ ptr, Visited iop ⟨0x40000000, archive 0 1 1 [7]⟩ ptr →
        SmallFields ⟨0x40000000, archive 0 1 1 [7]⟩ ptr := by
  have haccepted : parseZipArchive iop ⟨0x40000000, archive 0 1 1 [7]⟩ = .ok [entry stored 1 1] := by
    decide +kernel
  refine ⟨haccepted, (parseZipArchive_bounds_iff iop_addSigned haccepted).mp ?_⟩
  intro e he
  obtain rfl := List.mem_singleton.mp he
  exact ⟨by decide, by decide, by decide, by decide +kernel⟩

end Sample

end OpenRecovery.Minzip
