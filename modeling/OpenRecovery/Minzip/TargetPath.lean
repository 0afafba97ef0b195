import OpenRecovery.Minzip.ExtractDir

/-!
# The path buffer

In lexicographic order the strings with a given prefix are next to each other (`prefix_between`), so
giving up on the first mismatch after a match leaves out no entry. The path buffer holds the target
directory with a slash from its first use on, and after each use the path of the entry
(`targetEntryPath_spec`).
-/

set_option autoImplicit false

namespace OpenRecovery.Minzip

open OpenRecovery.Storage

/-! ## Prefixes -/

/-- What lies between two strings with a prefix has that prefix. -/
theorem prefix_between {p a b c : Bytes} (ha : p <+: a) (hc : p <+: c) (hab : a ≤ b) (hbc : b ≤ c) :
    p <+: b := by
  induction p generalizing a b c with
  | nil => exact List.nil_prefix
  | cons x p ih =>
      obtain ⟨a, rfl, hpa⟩ := List.cons_prefix_iff.mp ha
      obtain ⟨c, rfl, hpc⟩ := List.cons_prefix_iff.mp hc
      cases b with
      | nil => exact absurd (List.nil_lt_cons x a) hab
      | cons y b =>
          have hyx : ¬ (y :: b < x :: a) := hab
          have hxy : ¬ (x :: c < y :: b) := hbc
          rw [List.cons_lt_cons_iff, not_or, not_and] at hyx hxy
          -- the first character lies between `x` and `x`
          have hsame : y = x := UInt8.le_antisymm (UInt8.not_lt.mp hxy.1) (UInt8.not_lt.mp hyx.1)
          exact List.cons_prefix_cons.mpr ⟨hsame.symm, ih hpa hpc (hyx.2 hsame) (hxy.2 hsame.symm)⟩

theorem strncmp_eq_zero_iff {a p : Bytes} (h : p.length ≤ a.length) :
    strncmp a p = 0 ↔ p <+: a := by
  induction a generalizing p with
  | nil =>
      rw [List.length_eq_zero_iff.mp (Nat.le_zero.mp h)]
      exact iff_of_true rfl List.nil_prefix
  | cons x a ih =>
      cases p with
      | nil => exact iff_of_true rfl List.nil_prefix
      | cons y p =>
          rw [strncmp, List.cons_prefix_cons]
          by_cases hxy : x = y
          · rw [if_pos hxy, ih (Nat.le_of_succ_le_succ h)]
            exact (and_iff_right hxy.symm).symm
          · rw [if_neg hxy]
            refine iff_of_false ?_ fun h => hxy h.1.symm
            intro hzero
            exact hxy (UInt8.toNat_inj.mp (by omega))

/-! ## The path buffer -/

namespace Buffer

theorem length_realloc (buf : Option Buffer) {n : Nat} (h : (buf.getD []).length ≤ n) :
    (realloc buf n).length = n := by
  simp only [realloc, List.length_append, List.length_take, List.length_replicate]
  omega

theorem memcpy_append (front : Buffer) (data : Bytes) (rest : Buffer)
    (h : data.length ≤ rest.length) :
    memcpy (front ++ rest) front.length data =
      some (front ++ (data.map some ++ rest.drop data.length)) := by
  rw [memcpy, if_pos (by rw [List.length_append]; omega), List.take_left, List.drop_append,
    List.drop_eq_nil_of_le (by omega), List.nil_append, Nat.add_sub_cancel_left]

theorem string_append {s : Bytes} (h : (0 : UInt8) ∉ s) (rest : Buffer) :
    string (s.map some ++ some 0 :: rest) = some s := by
  induction s with
  | nil => rfl
  | cons c s ih =>
      rw [List.mem_cons, not_or] at h
      rw [List.map_cons, List.cons_append, string, if_neg (Ne.symm h.1), ih h.2]
      rfl

end Buffer

/-- The directory with a slash at its end. -/
def withSlash (targetDir : Bytes) : Bytes :=
  if targetDir.getLast? = some slash then targetDir else targetDir ++ [slash]

/-- The helper before its first use, or with the target directory in its buffer. -/
structure Ready (targetDir zpath : Bytes) (helper : MzPathHelper) : Prop where
  zipDirLen : helper.zipDirLen = zpath.length
  state : helper.buf = none ∧ helper.bufLen = 0 ∧ helper.targetDir = targetDir ∧
      helper.targetDirLen = targetDir.length ∨
    ∃ rest, helper.buf = some ((withSlash targetDir).map some ++ rest) ∧
      helper.bufLen = ((withSlash targetDir).map some ++ rest).length ∧
      helper.targetDirLen = (withSlash targetDir).length

theorem length_withSlash (targetDir : Bytes) :
    (withSlash targetDir).length ≤ targetDir.length + 1 := by
  rw [withSlash]
  split
  · omega
  · rw [List.length_append, List.length_singleton]

/-- The first use puts the directory and a slash into the buffer. -/
theorem start_spec {targetDir : Bytes} (helper : MzPathHelper) (buf : Buffer)
    (hdir : helper.targetDir = targetDir) (hlen : helper.targetDirLen = targetDir.length)
    (hroom : targetDir.length + 1 ≤ buf.length) :
    ∃ rest, helper.start buf = some ((withSlash targetDir).map some ++ rest,
      (withSlash targetDir).length) ∧
        ((withSlash targetDir).map some ++ rest).length = buf.length := by
  have hcopy : Buffer.memcpy buf 0 targetDir =
      some (targetDir.map some ++ buf.drop targetDir.length) :=
    Buffer.memcpy_append [] targetDir buf (by omega)
  -- the last character of an empty directory is whatever the buffer starts with
  have hlast : (targetDir.map some ++ buf.drop targetDir.length)[targetDir.length - 1]? =
      if targetDir.length = 0 then buf[0]? else targetDir.getLast?.map some := by
    by_cases hnil : targetDir = []
    · simp [hnil]
    · have hpos : 0 < targetDir.length := List.length_pos_iff.mpr hnil
      rw [if_neg (by omega), List.getElem?_append_left (by rw [List.length_map]; omega),
        List.getElem?_map, List.getLast?_eq_getElem?]
  rw [MzPathHelper.start, hdir, hlen, List.take_length, hcopy]
  simp only [Option.bind_eq_bind, Option.bind_some, hlast]
  by_cases hslash : targetDir.getLast? = some slash
  · -- the directory ends in a slash
    have hpos : targetDir.length ≠ 0 := by
      intro hzero
      rw [List.length_eq_zero_iff.mp hzero] at hslash
      cases hslash
    rw [if_neg (by simp [hpos, hslash]), withSlash, if_pos hslash]
    refine ⟨_, rfl, ?_⟩
    rw [List.length_append, List.length_map, List.length_drop]
    omega
  · -- an empty directory gets its slash without a look at the buffer
    have hadd : targetDir.length = 0 ∨ ¬ (if targetDir.length = 0 then buf[0]? else
        targetDir.getLast?.map some) = some (some slash) := by
      by_cases hzero : targetDir.length = 0
      · exact .inl hzero
      · refine .inr ?_
        rw [if_neg hzero]
        simpa using hslash
    have hput : Buffer.memcpy (targetDir.map some ++ buf.drop targetDir.length) targetDir.length
        [slash] = some (targetDir.map some ++ ([slash].map some ++
          (buf.drop targetDir.length).drop 1)) := by
      have hroom' : [slash].length ≤ (buf.drop targetDir.length).length := by
        rw [List.length_drop, List.length_singleton]
        omega
      have hput := Buffer.memcpy_append (targetDir.map some) [slash] _ hroom'
      rwa [List.length_map] at hput
    rw [if_pos hadd, hput, withSlash, if_neg hslash]
    refine ⟨(buf.drop targetDir.length).drop 1, ?_, ?_⟩
    · simp
    · simp only [List.length_append, List.length_map, List.length_drop, List.length_singleton]
      omega

/-- The rest of the path and the NUL go behind the directory. -/
theorem finish_spec (dir name : Bytes) (rest : Buffer) (h : name.length + 1 ≤ rest.length) :
    ∃ rest', (do
        let buf ← Buffer.memcpy (dir.map some ++ rest) dir.length name
        Buffer.memcpy buf (dir.length + name.length) [0]) =
      some (dir.map some ++ (name.map some ++ some 0 :: rest')) ∧
        (dir.map some ++ (name.map some ++ some 0 :: rest')).length =
          (dir.map some ++ rest).length := by
  have hname : Buffer.memcpy (dir.map some ++ rest) dir.length name =
      some (dir.map some ++ (name.map some ++ rest.drop name.length)) := by
    have hcopy := Buffer.memcpy_append (dir.map some) name rest (by omega)
    rwa [List.length_map] at hcopy
  have hnul : Buffer.memcpy (dir.map some ++ (name.map some ++ rest.drop name.length))
      (dir.length + name.length) [0] =
        some (dir.map some ++ (name.map some ++ some 0 :: (rest.drop name.length).drop 1)) := by
    have hcopy := Buffer.memcpy_append (dir.map some ++ name.map some) [0]
      (rest.drop name.length) (by rw [List.length_drop, List.length_singleton]; omega)
    simpa using hcopy
  refine ⟨(rest.drop name.length).drop 1, ?_, ?_⟩
  · rw [hname]
    exact hnul
  · simp only [List.length_append, List.length_map, List.length_cons, List.length_drop]
    omega

/-- What the last two steps leave, from any buffer that starts with the directory. -/
theorem Ready.finish {targetDir zpath fileName : Bytes} (hdir : (0 : UInt8) ∉ targetDir)
    (hname : (0 : UInt8) ∉ fileName) (rest : Buffer) (base : MzPathHelper)
    (hbase : base.zipDirLen = zpath.length)
    (hlen : base.bufLen = ((withSlash targetDir).map some ++ rest).length)
    (hroom : fileName.length - zpath.length + 1 ≤ rest.length) :
    ∃ helper', (do
        let buf ← Buffer.memcpy ((withSlash targetDir).map some ++ rest)
          (withSlash targetDir).length (fileName.drop zpath.length)
        let buf ← Buffer.memcpy buf
          ((withSlash targetDir).length + (fileName.length - zpath.length)) [0]
        return { base with buf := some buf, targetDirLen := (withSlash targetDir).length }) =
        some helper' ∧
      Ready targetDir zpath helper' ∧
        helper'.buf.bind Buffer.string =
          some (withSlash targetDir ++ fileName.drop zpath.length) := by
  have hsuffix : (fileName.drop zpath.length).length = fileName.length - zpath.length :=
    List.length_drop
  obtain ⟨rest', hcopy, hsame⟩ :=
    finish_spec (withSlash targetDir) (fileName.drop zpath.length) rest (by omega)
  rw [hsuffix] at hcopy
  obtain ⟨buf, hbuf, hcopy⟩ := Option.bind_eq_some_iff.mp hcopy
  refine ⟨_, by rw [hbuf]; simp only [Option.bind_eq_bind, Option.bind_some, hcopy]; rfl, ?_, ?_⟩
  · exact ⟨hbase, .inr ⟨_, rfl, hlen.trans hsame.symm, rfl⟩⟩
  · -- neither part has a NUL, so the string ends where it was put
    have hnul : (0 : UInt8) ∉ withSlash targetDir ++ fileName.drop zpath.length := by
      rw [List.mem_append, not_or]
      refine ⟨?_, fun h => hname (List.mem_of_mem_drop h)⟩
      rw [withSlash]
      split
      · exact hdir
      · simp [hdir, slash]
    have hstring := Buffer.string_append hnul rest'
    rw [List.map_append, List.append_assoc] at hstring
    exact hstring

/-- The buffer holds the path of the entry, and is ready for the next one. -/
theorem targetEntryPath_spec {targetDir zpath fileName : Bytes} {helper : MzPathHelper}
    (hready : Ready targetDir zpath helper) (hdir : (0 : UInt8) ∉ targetDir) (hname : (0 : UInt8) ∉ fileName) :
    ∃ helper', targetEntryPath helper fileName = some helper' ∧ Ready targetDir zpath helper' ∧
      helper'.buf.bind Buffer.string = some (withSlash targetDir ++ fileName.drop zpath.length) := by
  obtain ⟨hzip, hstate⟩ := hready
  have hlength := length_withSlash targetDir
  rcases hstate with ⟨hbuf, hbufLen, htarget, htargetLen⟩ | ⟨rest, hbuf, hbufLen, htargetLen⟩
  · -- the first use
    have hgrow : helper.bufLen <
        helper.targetDirLen + 1 + (fileName.length - helper.zipDirLen) + 1 := by
      omega
    rw [targetEntryPath]
    simp only [if_pos hgrow, hbuf, if_true, Option.bind_eq_bind, Option.bind_some]
    generalize hneed : helper.targetDirLen + 1 + (fileName.length - helper.zipDirLen) + 1 = needLen
    have hnew : (Buffer.realloc none (needLen * 2)).length = needLen * 2 :=
      Buffer.length_realloc none (Nat.zero_le _)
    obtain ⟨rest, hstart, hsame⟩ := start_spec
      { helper with buf := some (Buffer.realloc none (needLen * 2)), bufLen := needLen * 2 }
      (Buffer.realloc none (needLen * 2)) htarget htargetLen (by omega)
    rw [hstart]
    simp only [Option.bind_some, hzip]
    apply Ready.finish hdir hname rest { helper with zipDirLen := zpath.length, bufLen := needLen * 2 }
    · rfl
    · exact (hsame.trans hnew).symm
    · rw [List.length_append, List.length_map] at hsame
      omega
  · rw [targetEntryPath]
    generalize hneed : helper.targetDirLen + 1 + (fileName.length - helper.zipDirLen) + 1 = needLen
    have hsome : helper.buf ≠ none := by simp [hbuf]
    by_cases hgrow : helper.bufLen < needLen
    · -- `realloc` keeps what is in the buffer
      have hrealloc : Buffer.realloc helper.buf (needLen * 2) =
          (withSlash targetDir).map some ++
            (rest ++ List.replicate (needLen * 2 - helper.bufLen) none) := by
        rw [Buffer.realloc, hbuf, Option.getD_some, List.take_of_length_le (by omega), ← hbufLen,
          List.append_assoc]
      simp only [if_pos hgrow, if_neg hsome, Option.bind_eq_bind, Option.bind_some, hrealloc, hzip,
        htargetLen]
      rw [List.length_append, List.length_map] at hbufLen
      apply Ready.finish hdir hname _ { helper with zipDirLen := zpath.length, bufLen := needLen * 2 }
      · rfl
      · simp only [List.length_append, List.length_map, List.length_replicate]
        omega
      · rw [List.length_append, List.length_replicate]
        omega
    · simp only [if_neg hgrow, Option.bind_eq_bind, hbuf, Option.bind_some, hzip,
        htargetLen]
      apply Ready.finish hdir hname rest { helper with zipDirLen := zpath.length }
      · rfl
      · exact hbufLen
      · rw [List.length_append, List.length_map] at hbufLen
        omega

end OpenRecovery.Minzip
