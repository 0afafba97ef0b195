import Mathlib.Data.BitVec
import OpenRecovery.Storage.Bytes

/-!
# Packets on the wire

`amessage` and `apacket` of `sideloader/adb.h`, as `send_packet` completes them, `remote_write` puts
them on the USB connection and `remote_read` takes them from it. `remote_read` accepts the encoding
of a packet and nothing else (`remoteRead_eq_some_iff`), so that the packets of a connection arrive
as they were sent up to the first bytes that are none (`outputThread_eq_iff`). The check sum sees
every single byte but those of the arguments (`remoteRead_corrupted`).
-/

set_option autoImplicit false

namespace OpenRecovery.Sideloader

open OpenRecovery.Storage

/-- `unsigned`. -/
abbrev Word := BitVec 32

def maxPayload : ℕ := 4096

def aSync : Word := 0x434e5953
def aCnxn : Word := 0x4e584e43
def aOpen : Word := 0x4e45504f
def aOkay : Word := 0x59414b4f
def aClse : Word := 0x45534c43
def aWrte : Word := 0x45545257

def aVersion : Word := 0x01000000

/-- `amessage`. -/
structure AMessage where
  command : Word
  arg0 : Word
  arg1 : Word
  dataLength : Word
  dataCheck : Word
  magic : Word
  deriving DecidableEq

/-- `apacket`, with the payload alone of its buffer. -/
structure APacket where
  command : Word
  arg0 : Word
  arg1 : Word
  data : Bytes
  fits : data.length ≤ maxPayload
  deriving DecidableEq

/-- A packet without a payload, as `get_apacket` makes it. -/
def APacket.bare (command arg0 arg1 : Word) : APacket := ⟨command, arg0, arg1, [], Nat.zero_le _⟩

/-- The loop over the payload in `send_packet` and `check_data`. -/
def checkSum (data : Bytes) : Word := data.foldl (fun sum x => sum + x.toBitVec.setWidth 32) 0

/-- The message that `send_packet` makes of a packet. -/
def APacket.msg (p : APacket) : AMessage where
  command := p.command
  arg0 := p.arg0
  arg1 := p.arg1
  dataLength := BitVec.ofNat 32 p.data.length
  dataCheck := checkSum p.data
  magic := p.command ^^^ 0xffffffff

/-! ## Little-endian words -/

/-- A word in memory. -/
def wordBytes (v : Word) : Bytes := write4 v.toNat

@[simp] theorem length_wordBytes (v : Word) : (wordBytes v).length = 4 := rfl

/-- The four bytes of a word give it back. -/
theorem leNat_wordBytes (v : Word) : leNat (wordBytes v) = v.toNat := by
  have h := leNat_write4 v.toNat
  have hlt := v.isLt
  rw [Int.emod_eq_of_lt (Int.natCast_nonneg _) (by exact_mod_cast hlt)] at h
  exact_mod_cast h

/-- Words with the same bytes are equal. -/
theorem wordBytes_injective {v w : Word} (h : wordBytes v = wordBytes w) : v = w :=
  BitVec.eq_of_toNat_eq (by rw [← leNat_wordBytes, ← leNat_wordBytes, h])

/-- Byte strings of one length are equal if their numbers are. -/
theorem leNat_injective {x y : Bytes} (hlen : x.length = y.length) (h : leNat x = leNat y) :
    x = y := by
  induction x generalizing y with
  | nil => exact (List.length_eq_zero_iff.mp hlen.symm).symm
  | cons a x ih =>
      cases y with
      | nil => cases hlen
      | cons b y =>
          have ha := a.toNat_lt
          have hb := b.toNat_lt
          simp only [leNat] at h
          rw [ih (Nat.succ.inj hlen) (by omega), UInt8.toNat_inj.mp (by omega : a.toNat = b.toNat)]

/-- Every four bytes are a word in memory. -/
theorem wordBytes_leNat {x : Bytes} (h : x.length = 4) : wordBytes (BitVec.ofNat 32 (leNat x)) = x := by
  apply leNat_injective (by rw [h, length_wordBytes])
  have hlt := leNat_lt (a := x)
  rw [h] at hlt
  rw [leNat_wordBytes, BitVec.toNat_ofNat]
  exact Nat.mod_eq_of_lt (by omega)

/-! ## remote_write and remote_read -/

/-- A message in memory. -/
def AMessage.bytes (m : AMessage) : Bytes :=
  wordBytes m.command ++ wordBytes m.arg0 ++ wordBytes m.arg1 ++ wordBytes m.dataLength ++
    wordBytes m.dataCheck ++ wordBytes m.magic

@[simp] theorem AMessage.length_bytes (m : AMessage) : m.bytes.length = 24 := rfl

/-- What `remote_write` hands to `usb_write`. -/
def remoteWrite (p : APacket) : Bytes :=
  if p.msg.dataLength = 0 then p.msg.bytes else p.msg.bytes ++ p.data

/-- `usb_read`: so many bytes, or an error. It is one call of `read`, which is taken to bring all
the bytes that were asked for as long as there are so many. -/
def usbRead (n : ℕ) (usb : Bytes) : Option (Bytes × Bytes) :=
  if n ≤ usb.length then some (usb.take n, usb.drop n) else none

/-- The word at a position of a message. -/
def wordAt (x : Bytes) (k : ℕ) : Word := BitVec.ofNat 32 (leNat ((x.drop (4 * k)).take 4))

/-- The message that `sizeof(amessage)` bytes are. -/
def AMessage.ofBytes (x : Bytes) : AMessage :=
  ⟨wordAt x 0, wordAt x 1, wordAt x 2, wordAt x 3, wordAt x 4, wordAt x 5⟩

def checkHeader (m : AMessage) : Bool :=
  m.magic = m.command ^^^ 0xffffffff ∧ m.dataLength.toNat ≤ maxPayload

def checkData (m : AMessage) (data : Bytes) : Bool := checkSum data = m.dataCheck

/-- The bytes that come first are read. -/
theorem usbRead_append {n : ℕ} {x : Bytes} (h : x.length = n) (rest : Bytes) :
    usbRead n (x ++ rest) = some (x, rest) := by
  rw [usbRead, if_pos (by rw [List.length_append]; omega), List.take_left' h, List.drop_left' h]

/-- What was read came first. -/
theorem usbRead_eq_some {n : ℕ} {usb x rest : Bytes} (h : usbRead n usb = some (x, rest)) :
    x.length = n ∧ usb = x ++ rest := by
  unfold usbRead at h
  split at h
  · rename_i hle
    cases h
    exact ⟨List.length_take_of_le hle, (List.take_append_drop n usb).symm⟩
  · cases h

/-- The second `usb_read`, for a message with a payload. -/
def readData (m : AMessage) (usb : Bytes) : Option (Bytes × Bytes) :=
  if m.dataLength ≠ 0 then usbRead m.dataLength.toNat usb else some ([], usb)

/-- The data read have the length that the header says. -/
theorem readData_eq_some {m : AMessage} {usb data rest : Bytes}
    (h : readData m usb = some (data, rest)) :
    data.length = m.dataLength.toNat ∧ usb = data ++ rest := by
  unfold readData at h
  split at h
  · exact usbRead_eq_some h
  · rename_i hzero
    cases h
    rw [not_not.mp hzero]
    exact ⟨rfl, rfl⟩

/-- After a header that was accepted, the data fit into the packet. -/
theorem readData_fits {m : AMessage} {usb data rest : Bytes} (hheader : checkHeader m = true)
    (h : readData m usb = some (data, rest)) : data.length ≤ maxPayload := by
  rw [(readData_eq_some h).1]
  exact (of_decide_eq_true hheader).2

/-- `remote_read`, with what is left of the input. -/
def remoteRead (usb : Bytes) : Option (APacket × Bytes) :=
  match usbRead 24 usb with
  | none => none
  | some (header, usb) =>
      let m := AMessage.ofBytes header
      if hheader : checkHeader m = true then
        match hdata : readData m usb with
        | none => none
        | some (data, rest) =>
            if checkData m data = true then
              some (⟨m.command, m.arg0, m.arg1, data, readData_fits hheader hdata⟩, rest)
            else none
      else none

/-- A header is read back as it was written. -/
theorem AMessage.ofBytes_bytes (m : AMessage) : AMessage.ofBytes m.bytes = m := by
  have hword : ∀ v : Word, BitVec.ofNat 32 (leNat (wordBytes v)) = v := by
    intro v
    rw [leNat_wordBytes, BitVec.ofNat_toNat, BitVec.setWidth_eq]
  obtain ⟨command, arg0, arg1, dataLength, dataCheck, magic⟩ := m
  exact congr (congr (congr (congr (congr (congrArg AMessage.mk (hword command)) (hword arg0))
    (hword arg1)) (hword dataLength)) (hword dataCheck)) (hword magic)

/-- Every 24 bytes are those of a header. -/
theorem AMessage.bytes_ofBytes {x : Bytes} (h : x.length = 24) : (AMessage.ofBytes x).bytes = x := by
  have hword : ∀ k, 4 * k + 4 ≤ 24 → wordBytes (wordAt x k) = (x.drop (4 * k)).take 4 := by
    intro k hk
    apply wordBytes_leNat
    rw [List.length_take, List.length_drop]
    omega
  have htake : ∀ k, x.take (4 * k) ++ (x.drop (4 * k)).take 4 = x.take (4 * (k + 1)) := by
    intro k
    rw [Nat.mul_add, List.take_add]
  unfold AMessage.bytes AMessage.ofBytes
  simp only [hword 0 (by decide), hword 1 (by decide), hword 2 (by decide), hword 3 (by decide),
    hword 4 (by decide), hword 5 (by decide)]
  have h0 : (x.drop (4 * 0)).take 4 = x.take (4 * 1) := rfl
  rw [h0, htake 1, htake 2, htake 3, htake 4, htake 5]
  exact List.take_of_length_le (by omega)

/-- The length in the header is that of the data. -/
theorem APacket.dataLength_toNat (p : APacket) : p.msg.dataLength.toNat = p.data.length := by
  have hfits := p.fits
  rw [maxPayload] at hfits
  show (BitVec.ofNat 32 p.data.length).toNat = p.data.length
  rw [BitVec.toNat_ofNat]
  exact Nat.mod_eq_of_lt (by omega)

/-- No length, no data. -/
theorem APacket.dataLength_eq_zero (p : APacket) : p.msg.dataLength = 0 ↔ p.data = [] := by
  rw [← BitVec.toNat_inj, p.dataLength_toNat, ← List.length_eq_zero_iff]
  rfl

/-- A packet on the wire is its header and its data. -/
theorem remoteWrite_eq (p : APacket) : remoteWrite p = p.msg.bytes ++ p.data := by
  unfold remoteWrite
  split
  · rename_i hzero
    rw [p.dataLength_eq_zero.mp hzero, List.append_nil]
  · rfl

/-- The data of a packet are read as they were written. -/
theorem readData_append (p : APacket) (rest : Bytes) :
    readData p.msg (p.data ++ rest) = some (p.data, rest) := by
  unfold readData
  split
  · exact usbRead_append p.dataLength_toNat.symm rest
  · rename_i hzero
    rw [p.dataLength_eq_zero.mp (not_not.mp hzero)]
    rfl

/-- `remote_read` takes what `remote_write` wrote for a packet, and nothing else. -/
theorem remoteRead_eq_some_iff {usb rest : Bytes} {p : APacket} :
    remoteRead usb = some (p, rest) ↔ usb = remoteWrite p ++ rest := by
  rw [remoteWrite_eq, List.append_assoc]
  constructor
  · intro h
    unfold remoteRead at h
    split at h
    · cases h
    · rename_i header usb' husb
      obtain ⟨hlen, rfl⟩ := usbRead_eq_some husb
      simp only at h
      split at h
      · rename_i hheader
        split at h
        · cases h
        · rename_i data rest' hdata
          obtain ⟨hdatalen, rfl⟩ := readData_eq_some hdata
          split at h
          · rename_i hcheck
            cases h
            -- the message is the one that `send_packet` would make
            have hmsg : (AMessage.ofBytes header) =
                ⟨(AMessage.ofBytes header).command, (AMessage.ofBytes header).arg0,
                  (AMessage.ofBytes header).arg1, BitVec.ofNat 32 data.length, checkSum data,
                  (AMessage.ofBytes header).command ^^^ 0xffffffff⟩ := by
              have hmagic := (of_decide_eq_true hheader).1
              have hsum := of_decide_eq_true hcheck
              rw [hdatalen, BitVec.ofNat_toNat, BitVec.setWidth_eq, hsum, ← hmagic]
            have hbytes := (AMessage.bytes_ofBytes hlen).symm.trans (congrArg AMessage.bytes hmsg)
            exact congrArg (· ++ (data ++ rest)) hbytes
          · cases h
      · cases h
  · rintro rfl
    unfold remoteRead
    rw [usbRead_append p.msg.length_bytes]
    simp only [AMessage.ofBytes_bytes]
    have hheader : checkHeader p.msg = true := by
      refine decide_eq_true ⟨rfl, ?_⟩
      rw [p.dataLength_toNat]
      exact p.fits
    rw [dif_pos hheader]
    split
    · rename_i hdata
      rw [AMessage.ofBytes_bytes, readData_append] at hdata
      cases hdata
    · rename_i data rest' hdata
      rw [AMessage.ofBytes_bytes, readData_append] at hdata
      cases hdata
      exact if_pos (decide_eq_true rfl)

/-- The length of a packet on the wire. -/
theorem length_remoteWrite (p : APacket) : (remoteWrite p).length = 24 + p.data.length := by
  rw [remoteWrite_eq, List.length_append, p.msg.length_bytes]

/-! ## output_thread -/

/-- The loop of `output_thread`, at most so many packets. -/
def readPackets : ℕ → Bytes → List APacket × Bytes
  | 0, usb => ([], usb)
  | n + 1, usb =>
      match remoteRead usb with
      | none => ([], usb)
      | some (p, rest) => (p :: (readPackets n rest).1, (readPackets n rest).2)

/-- The packets that `output_thread` passes on, and what is left when `remote_read` fails. -/
def outputThread (usb : Bytes) : List APacket × Bytes := readPackets usb.length usb

/-- Packets one after the other. -/
def wire (ps : List APacket) : Bytes := (ps.map remoteWrite).flatten

@[simp] theorem wire_cons (p : APacket) (ps : List APacket) :
    wire (p :: ps) = remoteWrite p ++ wire ps := rfl

/-- Packets are read from a stream exactly if it begins with them, and what follows is no packet. -/
theorem readPackets_eq_iff {n : ℕ} {usb rest : Bytes} {ps : List APacket} (hn : usb.length ≤ n) :
    readPackets n usb = (ps, rest) ↔ usb = wire ps ++ rest ∧ remoteRead rest = none := by
  induction n generalizing usb ps with
  | zero =>
      obtain rfl := List.length_eq_zero_iff.mp (Nat.le_zero.mp hn)
      have hnone : remoteRead [] = none := rfl
      constructor
      · intro h
        cases h
        exact ⟨rfl, hnone⟩
      · rintro ⟨h, -⟩
        obtain ⟨hps, rfl⟩ := List.append_eq_nil_iff.mp h.symm
        cases ps with
        | nil => rfl
        | cons p ps =>
            have hlen := congrArg List.length hps
            rw [wire_cons, List.length_append, length_remoteWrite] at hlen
            simp at hlen
  | succ n ih =>
      rw [readPackets]
      cases hread : remoteRead usb with
      | none =>
          constructor
          · intro h
            cases h
            exact ⟨rfl, hread⟩
          · rintro ⟨rfl, hrest⟩
            cases ps with
            | nil => rfl
            | cons p ps =>
                rw [wire_cons, List.append_assoc, remoteRead_eq_some_iff.mpr rfl] at hread
                cases hread
      | some r =>
          obtain ⟨p, usb'⟩ := r
          obtain rfl := remoteRead_eq_some_iff.mp hread
          have hn' : usb'.length ≤ n := by
            rw [List.length_append, length_remoteWrite] at hn
            omega
          constructor
          · intro h
            cases h
            obtain ⟨hps, hrest⟩ := (ih hn').mp rfl
            exact ⟨by rw [wire_cons, List.append_assoc, ← hps], hrest⟩
          · rintro ⟨h, hrest⟩
            cases ps with
            | nil =>
                rw [show wire [] = [] from rfl, List.nil_append] at h
                rw [h, hrest] at hread
                cases hread
            | cons q ps =>
                rw [wire_cons, List.append_assoc] at h
                rw [h, remoteRead_eq_some_iff.mpr rfl] at hread
                cases hread
                simp only [(ih hn').mpr ⟨rfl, hrest⟩]

/-- The packets that are passed on are the ones whose encodings the input begins with, up to the
first bytes that encode no packet. -/
theorem outputThread_eq_iff {usb rest : Bytes} {ps : List APacket} :
    outputThread usb = (ps, rest) ↔ usb = wire ps ++ rest ∧ remoteRead rest = none :=
  readPackets_eq_iff (Nat.le_refl _)

/-! ## One byte that is not right -/

section Corrupted

variable {p : APacket} {x y : Bytes} {i k n : ℕ} {b : UInt8}

/-- A byte outside a range does not change it. -/
theorem take_drop_set (h : i < k ∨ k + n ≤ i) : ((x.set i b).drop k).take n = (x.drop k).take n := by
  rw [List.drop_set]
  split
  · rfl
  · rw [List.take_set, List.set_eq_of_length_le]
    rw [List.length_take]
    omega

/-- The check sum of one byte more. -/
theorem checkSum_cons (a : UInt8) (data : Bytes) :
    checkSum (a :: data) = a.toBitVec.setWidth 32 + checkSum data := by
  have hfoldl : ∀ (data : Bytes) (sum : Word),
      data.foldl (fun sum x => sum + x.toBitVec.setWidth 32) sum = sum + checkSum data := by
    intro data
    induction data with
    | nil => exact fun sum => (add_zero sum).symm
    | cons a data ih =>
        intro sum
        rw [checkSum, List.foldl_cons, List.foldl_cons, ih, ih, zero_add, add_assoc]
  rw [checkSum, List.foldl_cons, hfoldl, zero_add]

/-- A single byte changes the sum. -/
theorem checkSum_set {data : Bytes} (hi : i < data.length) (h : checkSum (data.set i b) = checkSum data) :
    data.set i b = data := by
  induction data generalizing i with
  | nil => rfl
  | cons a data ih =>
      cases i with
      | zero =>
          rw [List.set_cons_zero, checkSum_cons, checkSum_cons] at h
          have hbyte := congrArg BitVec.toNat (add_right_cancel h)
          simp only [BitVec.toNat_setWidth, UInt8.toNat_toBitVec] at hbyte
          have ha := a.toNat_lt
          have hb := b.toNat_lt
          rw [Nat.mod_eq_of_lt (by omega), Nat.mod_eq_of_lt (by omega)] at hbyte
          rw [List.set_cons_zero, UInt8.toNat_inj.mp hbyte]
      | succ i =>
          rw [List.set_cons_succ, checkSum_cons, checkSum_cons] at h
          rw [List.set_cons_succ, ih (Nat.lt_of_succ_lt_succ hi) (add_left_cancel h)]

/-- Equal ranges have equal bytes. -/
theorem getElem?_of_take_drop (hk : k ≤ i) (hn : i < k + n) (h : (x.drop k).take n = (y.drop k).take n) :
    x[i]? = y[i]? := by
  have hat : ∀ z : Bytes, ((z.drop k).take n)[i - k]? = z[i]? := by
    intro z
    rw [List.getElem?_take_of_lt (by omega), List.getElem?_drop, Nat.add_sub_cancel' hk]
  rw [← hat x, ← hat y, h]

/-- The words of a packet on the wire, at their places. -/
theorem remoteWrite_words (p : APacket) :
    ((remoteWrite p).drop 0).take 4 = wordBytes p.command ∧
    ((remoteWrite p).drop 12).take 4 = wordBytes p.msg.dataLength ∧
    ((remoteWrite p).drop 16).take 4 = wordBytes (checkSum p.data) ∧
    ((remoteWrite p).drop 20).take 4 = wordBytes (p.command ^^^ 0xffffffff) ∧
    (remoteWrite p).drop 24 = p.data := by
  rw [remoteWrite_eq]
  exact ⟨rfl, rfl, rfl, rfl, rfl⟩

/-- A packet with one wrong byte outside the arguments and the length is refused. -/
theorem remoteRead_corrupted (rest : Bytes) (hi : i < (remoteWrite p).length)
    (hb : (remoteWrite p)[i]? ≠ some b) (hwhere : i < 4 ∨ 16 ≤ i) :
    remoteRead ((remoteWrite p).set i b ++ rest) = none := by
  by_contra hsome
  obtain ⟨⟨q, rest'⟩, hread⟩ := Option.ne_none_iff_exists'.mp hsome
  have heq := remoteRead_eq_some_iff.mp hread
  have hq := length_remoteWrite q
  have hp := length_remoteWrite p
  obtain ⟨hcommand, hlength, hcheck, hmagic, hdata⟩ := remoteWrite_words p
  obtain ⟨hcommand', hlength', hcheck', hmagic', hdata'⟩ := remoteWrite_words q
  -- a word that the wrong byte is not in
  have hsame : ∀ k n, k + n ≤ 24 → (i < k ∨ k + n ≤ i) →
      ((remoteWrite p).drop k).take n = ((remoteWrite q).drop k).take n := by
    intro k n hkn hout
    have hcut := congrArg (fun z => (z.drop k).take n) heq
    rw [List.drop_append_of_le_length (by rw [List.length_set]; omega),
      List.drop_append_of_le_length (by omega),
      List.take_append_of_le_length (by rw [List.length_drop, List.length_set]; omega),
      List.take_append_of_le_length (by rw [List.length_drop]; omega), take_drop_set hout] at hcut
    exact hcut
  have hlen : p.data.length = q.data.length := by
    have h := hsame 12 4 (by decide) (by omega)
    rw [hlength, hlength'] at h
    rw [← p.dataLength_toNat, ← q.dataLength_toNat, wordBytes_injective h]
  have hset : (remoteWrite p).set i b = remoteWrite q :=
    (List.append_inj heq (by rw [List.length_set]; omega)).1
  -- at its place the other packet has the wrong byte
  have hdiffer : ∀ k n, k ≤ i → i < k + n →
      ((remoteWrite p).drop k).take n ≠ ((remoteWrite q).drop k).take n := by
    intro k n hk hn h
    apply hb
    rw [getElem?_of_take_drop hk hn h, ← hset, List.getElem?_set_self hi]
  have hcomplement : p.command = q.command → p.command ^^^ 0xffffffff = q.command ^^^ 0xffffffff :=
    congrArg (· ^^^ 0xffffffff)
  have hdrop : (remoteWrite q).drop 24 = ((remoteWrite p).set i b).drop 24 := by rw [hset]
  rw [List.drop_set, hdata, hdata'] at hdrop
  rcases hwhere with h4 | h16
  · have h := hsame 20 4 (by decide) (by omega)
    rw [hmagic, hmagic'] at h
    refine hdiffer 0 4 (Nat.zero_le i) h4 ?_
    rw [hcommand, hcommand', (BitVec.xor_left_inj _).mp (wordBytes_injective h)]
  · by_cases h20 : i < 20
    · rw [if_pos (by omega)] at hdrop
      refine hdiffer 16 4 h16 h20 ?_
      rw [hcheck, hcheck', hdrop]
    · by_cases h24 : i < 24
      · have h := hsame 0 4 (by decide) (by omega)
        rw [hcommand, hcommand'] at h
        refine hdiffer 20 4 (not_lt.mp h20) h24 ?_
        rw [hmagic, hmagic', wordBytes_injective h]
      · have h := hsame 16 4 (by decide) (by omega)
        rw [hcheck, hcheck'] at h
        rw [if_neg h24] at hdrop
        have hsum := wordBytes_injective h
        rw [hdrop] at hsum
        have hkept := checkSum_set (by omega : i - 24 < p.data.length) hsum.symm
        refine hdiffer 24 p.data.length (not_lt.mp h24) (by omega) ?_
        rw [hdata, hdata', hdrop, hkept]

/-- A bit of the payload has changed on the way. -/
theorem remoteRead_corrupted_write :
    remoteRead ((remoteWrite ⟨aWrte, 77, 1, [97, 98, 99], by decide⟩).set 25 99 ++ [0]) = none :=
  remoteRead_corrupted [0] (by decide) (by decide) (.inr (by decide))

end Corrupted

end OpenRecovery.Sideloader
