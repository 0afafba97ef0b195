import OpenRecovery.Updater.Install

/-!
# The mounted volumes

`scan_mounted_volumes`, the two functions that find a volume, and `unmount_mounted_volume`. The
array has the cells that are allocated for it, and a write beyond them is `none`. One `read` gives
as much of the file as there is room for in `buf`. The strings are always allocated.
-/

set_option autoImplicit false

namespace OpenRecovery.Recovery

open OpenRecovery.Storage OpenRecovery.Updater

/-- `MountedVolume`; `none` is `NULL`. -/
structure MountedVolume where
  device : Option Bytes
  mountPoint : Option Bytes
  filesystem : Option Bytes
  flags : Option Bytes
  deriving DecidableEq

/-- A volume after its strings have been freed. -/
def MountedVolume.zero : MountedVolume := ⟨none, none, none, none⟩

/-- `g_mounts_state`. The list is as long as `volumes_allocd`. -/
structure MountsState where
  volumes : Option (List MountedVolume)
  volumeCount : ℕ

def MountsState.init : MountsState := ⟨none, 0⟩

def volumesAllocd : ℕ := 32

/-- What one `read` can get: `sizeof(buf) - 1` bytes. -/
def mountsRoom : ℕ := 2047

/-- `%s` with a width: the token and what comes after it. -/
def scanWord (width : ℕ) (s : Bytes) : Option (Bytes × Bytes) :=
  let s := s.dropWhile isspace
  if s = [] then none
  else
    let token := (s.takeWhile fun c => !isspace c).take width
    some (token, s.drop token.length)

/-- `sscanf(bufp, "%63s %63s %63s %127s", ...)`, if it matches four times. -/
def sscanfMounts (s : Bytes) : Option MountedVolume := do
  let (device, s) ← scanWord 63 (cText s)
  let (mountPoint, s) ← scanWord 63 s
  let (filesystem, s) ← scanWord 63 s
  let (flags, _) ← scanWord 127 s
  return ⟨some device, some mountPoint, some filesystem, some flags⟩

/-- The next volume, which is written without a look at `volumes_allocd`. -/
def MountsState.add (v : MountedVolume) (s : MountsState) : Option MountsState :=
  s.volumes.bind fun volumes =>
    if s.volumeCount < volumes.length then
      some ⟨some (volumes.set s.volumeCount v), s.volumeCount + 1⟩
    else none

/-- "Eat the line". -/
def eatLine (s : Bytes) : Bytes := (s.dropWhile (· ≠ newline)).tail

/-- The loop over the buffer; every round eats a byte at least. -/
def parseMounts : ℕ → Bytes → MountsState → Option MountsState
  | 0, _, s => some s
  | n + 1, rest, s =>
      if rest = [] then some s
      else
        (match sscanfMounts rest with
          -- a line without four fields is passed over
          | none => some s
          | some v => s.add v).bind (parseMounts n (eatLine rest))

/-- The volumes before a scan: allocated, or freed. -/
def MountsState.clear (s : MountsState) : MountsState :=
  match s.volumes with
  -- the first scan
  | none => ⟨some (List.replicate volumesAllocd .zero), 0⟩
  -- the strings are freed, and the array is kept
  | some volumes => ⟨some (List.replicate s.volumeCount .zero ++ volumes.drop s.volumeCount), 0⟩

/-- `scan_mounted_volumes`. The file is `none` if it cannot be opened or read. -/
def scanMountedVolumes (file : Option Bytes) (s : MountsState) : Option (ℤ × MountsState) :=
  match file with
  | none => some (-1, s.clear)
  | some content =>
      -- what does not fit into the buffer is not read
      let buf := content.take mountsRoom
      (parseMounts buf.length buf s.clear).map fun s => (0, s)

/-- The volumes that are looked at. -/
def MountsState.shown (s : MountsState) : List MountedVolume :=
  match s.volumes with
  | none => []
  | some volumes => volumes.take s.volumeCount

/-- `find_mounted_volume_by_device`: the index of the volume. -/
def findMountedVolumeByDevice (device : Bytes) (s : MountsState) : Option ℕ :=
  s.shown.findIdx? fun v => v.device = some device

/-- `find_mounted_volume_by_mount_point`. -/
def findMountedVolumeByMountPoint (mountPoint : Bytes) (s : MountsState) : Option ℕ :=
  s.shown.findIdx? fun v => v.mountPoint = some mountPoint

/-- `unmount_mounted_volume`, with what `umount` returns. -/
def unmountMountedVolume (ret : ℤ) (i : ℕ) (s : MountsState) : Option MountsState :=
  s.volumes.bind fun volumes =>
    if i < volumes.length then
      some (if ret = 0 then { s with volumes := some (volumes.set i .zero) } else s)
    else none

/-- The states after any scans and unmounts. -/
inductive MountsReached : MountsState → Prop
  | init : MountsReached .init
  | scan {s t : MountsState} {r : ℤ} (file : Option Bytes) (h : MountsReached s)
      (hscan : scanMountedVolumes file s = some (r, t)) : MountsReached t
  | unmount {s t : MountsState} (ret : ℤ) (i : ℕ) (h : MountsReached s)
      (hunmount : unmountMountedVolume ret i s = some t) : MountsReached t

end OpenRecovery.Recovery
