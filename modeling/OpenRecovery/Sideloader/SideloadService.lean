import OpenRecovery.Sideloader.SocketRun

/-!
# The service

`readx`, `writex` and `sideload_service`: the thread at the other end of the pair of sockets of a
connection. It writes the bytes that it reads, and says `OKAY` only when it has them all
(`sideloadService_spec`). With what the daemon does for the connection this holds from one end to
the other: when the host is told `OKAY`, the thread has written what the host sent
(`sideload_okay`). All threads write to `/tmp/update.zip`, and each creates it anew; what another
one writes to it, or cuts off, is not said here.
-/

set_option autoImplicit false

namespace OpenRecovery.Sideloader

open OpenRecovery.Storage

namespace Daemon

/-- How a loop has ended, or that it has not. -/
inductive Ending where
  | done
  | failed
  | waiting
  deriving DecidableEq

/-- `readx`: the bytes that came, how it ended, and the answers that it did not need. -/
def readx : List ReadAnswer → ℕ → Bytes × Ending × List ReadAnswer
  | as, 0 => ([], .done, as)
  | [], _ + 1 => ([], .waiting, [])
  | .bytes b x :: as, n + 1 =>
      let (y, e, as) := readx as (n - (x.take n).length)
      (b :: x.take n ++ y, e, as)
  | .intr :: as, n + 1 => readx as (n + 1)
  | .again :: as, _ + 1 => ([], .failed, as)
  | .ended :: as, _ + 1 => ([], .failed, as)

/-- `writex`: the bytes that went, how it ended, and the answers that it did not need. -/
def writex : List WriteAnswer → Bytes → Bytes × Ending × List WriteAnswer
  | as, [] => ([], .done, as)
  | [], _ :: _ => ([], .waiting, [])
  | .count n :: as, b :: x =>
      let (w, e, as) := writex as (x.drop n)
      (b :: x.take n ++ w, e, as)
  | .intr :: as, b :: x => writex as (b :: x)
  | .again :: as, _ :: _ => ([], .failed, as)
  | .ended :: as, _ :: _ => ([], .failed, as)

/-- The loop of `sideload_service`: the bytes that were read, those that were written, `count`, and
whether it has ended. It runs at most `count` times. -/
def sideloadLoop : ℕ → List ReadAnswer → List WriteAnswer → ℕ → Bytes × Bytes × ℕ × Bool
  | _, _, _, 0 => ([], [], 0, true)
  | 0, _, _, count + 1 => ([], [], count + 1, true)
  | n + 1, rs, ws, count + 1 =>
      let xfer := if count + 1 > 4096 then 4096 else count + 1
      let (x, e, rs) := readx rs xfer
      if e = .done then
        let (w, e, ws) := writex ws x
        if e = .done then
          let (y, f, left, ended) := sideloadLoop n rs ws (count + 1 - xfer)
          (x ++ y, w ++ f, left, ended)
        else (x, w, count + 1, decide (e = .failed))
      else (x, [], count + 1, decide (e = .failed))

/-- What a thread has done: the bytes that it has written to the file, if it could create it, what
it has read from the socket and written to it, and whether the process has exited. -/
structure Service where
  wrote : Option Bytes
  input : Bytes
  reply : Bytes
  exited : Bool
  deriving DecidableEq

/-- `sideload_service`. -/
def sideloadService (created : Bool) (rs : List ReadAnswer) (ws replies : List WriteAnswer)
    (count : Word) : Service :=
  if created = false then ⟨none, [], [], false⟩
  else
    let (x, f, left, ended) := sideloadLoop count.toNat rs ws count.toNat
    if ended = false then ⟨some f, x, [], false⟩
    else
      let (w, e, _) := writex replies (if left = 0 then cstr "OKAY" else cstr "FAIL")
      ⟨some f, x, w, decide (left = 0 ∧ e ≠ .waiting)⟩

theorem readx_length (as : List ReadAnswer) (n : ℕ) :
    (readx as n).1.length ≤ n ∧ ((readx as n).2.1 = .done → (readx as n).1.length = n) := by
  induction as generalizing n with
  | nil =>
      cases n with
      | zero => exact ⟨Nat.le_refl 0, fun _ => rfl⟩
      | succ n => exact ⟨Nat.zero_le _, by rintro ⟨⟩⟩
  | cons r as ih =>
      cases n with
      | zero =>
          rw [readx]
          exact ⟨Nat.le_refl 0, fun _ => rfl⟩
      | succ n =>
          cases r with
          | bytes b x =>
              obtain ⟨hle, hdone⟩ := ih (n - (x.take n).length)
              have htake := List.length_take_le n x
              have hlen : (b :: x.take n ++ (readx as (n - (x.take n).length)).1).length =
                  1 + (x.take n).length + (readx as (n - (x.take n).length)).1.length := by
                rw [List.length_append, List.length_cons, Nat.add_comm 1]
              refine ⟨?_, fun he => ?_⟩
              · show (b :: x.take n ++ (readx as (n - (x.take n).length)).1).length ≤ n + 1
                omega
              · have := hdone he
                show (b :: x.take n ++ (readx as (n - (x.take n).length)).1).length = n + 1
                omega
          | intr => exact ih (n + 1)
          | again => exact ⟨Nat.zero_le _, by rintro ⟨⟩⟩
          | ended => exact ⟨Nat.zero_le _, by rintro ⟨⟩⟩

theorem writex_prefix (as : List WriteAnswer) (x : Bytes) :
    (writex as x).1 <+: x ∧ ((writex as x).2.1 = .done → (writex as x).1 = x) := by
  induction as generalizing x with
  | nil =>
      cases x with
      | nil => exact ⟨List.nil_prefix, fun _ => rfl⟩
      | cons b x => exact ⟨List.nil_prefix, by rintro ⟨⟩⟩
  | cons r as ih =>
      cases x with
      | nil =>
          rw [writex]
          exact ⟨List.nil_prefix, fun _ => rfl⟩
      | cons b x =>
          cases r with
          | count n =>
              obtain ⟨⟨rest, hrest⟩, hdone⟩ := ih (x.drop n)
              have hsplit : b :: x = b :: x.take n ++ x.drop n := by
                rw [List.cons_append, List.take_append_drop]
              refine ⟨⟨rest, ?_⟩, fun he => ?_⟩
              · show (b :: x.take n ++ (writex as (x.drop n)).1) ++ rest = b :: x
                rw [List.append_assoc, hrest, ← hsplit]
              · show b :: x.take n ++ (writex as (x.drop n)).1 = b :: x
                rw [hdone he, ← hsplit]
          | intr => exact ih (b :: x)
          | again => exact ⟨List.nil_prefix, by rintro ⟨⟩⟩
          | ended => exact ⟨List.nil_prefix, by rintro ⟨⟩⟩

/-- The loop writes what it reads, in order, and is at zero when it has read and written it all. -/
theorem sideloadLoop_spec (n : ℕ) (rs : List ReadAnswer) (ws : List WriteAnswer) (count : ℕ)
    (hn : count ≤ n) :
    (sideloadLoop n rs ws count).2.1 <+: (sideloadLoop n rs ws count).1 ∧
      (sideloadLoop n rs ws count).1.length ≤ count ∧
      ((sideloadLoop n rs ws count).2.2.1 = 0 → (sideloadLoop n rs ws count).2.1 =
        (sideloadLoop n rs ws count).1 ∧ (sideloadLoop n rs ws count).1.length = count) := by
  induction n generalizing rs ws count with
  | zero =>
      obtain rfl := Nat.le_zero.mp hn
      exact ⟨List.prefix_refl _, Nat.le_refl 0, fun _ => ⟨rfl, rfl⟩⟩
  | succ n ih =>
      cases count with
      | zero => exact ⟨List.prefix_refl _, Nat.le_refl 0, fun _ => ⟨rfl, rfl⟩⟩
      | succ count =>
          have hxfer : ∃ xfer, (if count + 1 > 4096 then 4096 else count + 1) = xfer ∧
              0 < xfer ∧ xfer ≤ count + 1 := by
            refine ⟨_, rfl, ?_, ?_⟩
            · split <;> omega
            · split <;> omega
          obtain ⟨xfer, hif, hpos, hle⟩ := hxfer
          rw [sideloadLoop, hif]
          obtain ⟨hlen, hall⟩ := readx_length rs xfer
          rcases hread : readx rs xfer with ⟨x, e, rs'⟩
          rw [hread] at hlen hall
          dsimp only at hlen hall ⊢
          split
          · rename_i hdone
            obtain ⟨hpre, hwhole⟩ := writex_prefix ws x
            rcases hwrite : writex ws x with ⟨w, e', ws'⟩
            rw [hwrite] at hpre hwhole
            dsimp only at hpre hwhole ⊢
            split
            · rename_i hdone'
              obtain ⟨hfile, hmost, hzero⟩ := ih rs' ws' (count + 1 - xfer) (by omega)
              have hx := hall hdone
              rw [hwhole hdone']
              refine ⟨(List.prefix_append_right_inj x).mpr hfile, ?_, ?_⟩
              · rw [List.length_append]
                omega
              · intro hleft
                obtain ⟨hsame, hcount⟩ := hzero hleft
                refine ⟨congrArg (x ++ ·) hsame, ?_⟩
                rw [List.length_append]
                omega
            · exact ⟨hpre, Nat.le_trans hlen hle, fun hleft => absurd hleft (Nat.succ_ne_zero count)⟩
          · exact ⟨List.nil_prefix, Nat.le_trans hlen hle, fun hleft => absurd hleft (Nat.succ_ne_zero count)⟩

/-- What is written is the first part of what was read from the socket. If the service has said
anything that begins like `OKAY`, or has let the process exit, it is all of it, and as long as it
should be. -/
theorem sideloadService_spec (created : Bool) (rs : List ReadAnswer) (ws replies : List WriteAnswer)
    (count : Word) :
    (∀ f, (sideloadService created rs ws replies count).wrote = some f →
      f <+: (sideloadService created rs ws replies count).input) ∧
    ((sideloadService created rs ws replies count).exited = true ∨
        (sideloadService created rs ws replies count).reply.head? = some 79 →
      (sideloadService created rs ws replies count).wrote =
        some (sideloadService created rs ws replies count).input ∧
      (sideloadService created rs ws replies count).input.length = count.toNat) := by
  unfold sideloadService
  split
  · refine ⟨by rintro _ ⟨⟩, ?_⟩
    rintro (hsaid | hsaid) <;> cases hsaid
  · obtain ⟨hwrote, -, hzero⟩ := sideloadLoop_spec count.toNat rs ws count.toNat (Nat.le_refl _)
    rcases hloop : sideloadLoop count.toNat rs ws count.toNat with ⟨x, f, left, ended⟩
    rw [hloop] at hwrote hzero
    dsimp only at hwrote hzero ⊢
    split
    · refine ⟨by rintro _ ⟨⟩; exact hwrote, ?_⟩
      rintro (hsaid | hsaid) <;> cases hsaid
    · rcases hwrite : writex replies (if left = 0 then cstr "OKAY" else cstr "FAIL") with ⟨w, e, _⟩
      dsimp only
      refine ⟨by rintro _ ⟨⟩; exact hwrote, fun hsaid => ?_⟩
      have hleft : left = 0 := by
        by_contra hne
        rcases hsaid with hexit | hreply
        · exact hne (of_decide_eq_true hexit).1
        · -- the other answer begins with an F
          obtain ⟨hpre, -⟩ := writex_prefix replies (if left = 0 then cstr "OKAY" else cstr "FAIL")
          rw [hwrite, if_neg hne] at hpre
          obtain ⟨rest, hrest⟩ := hpre
          dsimp only at hrest
          cases w with
          | nil => cases hreply
          | cons b w =>
              cases hreply
              have hhead : (79 : UInt8) = 70 := (List.cons.inj hrest).1
              exact absurd hhead (by decide)
      obtain ⟨hsame, hcount⟩ := hzero hleft
      exact ⟨congrArg some hsame, hcount⟩

/-- The thread that `service_to_fd` starts for a connection, with the number in the name that its
`OPEN` brought. -/
def thread (created : Bool) (rs : List ReadAnswer) (ws replies : List WriteAnswer) :
    List Traffic → Option Service
  | .opened name :: _ => (serviceCount name).map (sideloadService created rs ws replies)
  | _ => none

theorem thread_eq_some {created : Bool} {rs : List ReadAnswer} {ws replies : List WriteAnswer}
    {es : List Traffic} {v : Service} (h : thread created rs ws replies es = some v) :
    ∃ name rest count, es = .opened name :: rest ∧ serviceCount name = some count ∧
      v = sideloadService created rs ws replies count := by
  cases es with
  | nil => cases h
  | cons e rest =>
      cases e with
      | opened name =>
          obtain ⟨count, hcount, rfl⟩ := Option.map_eq_some_iff.mp h
          exact ⟨name, rest, count, rfl, hcount, rfl⟩
      | okay => cases h
      | gave x => cases h
      | granted => cases h
      | took x => cases h

/-- From one end to the other. The pair of sockets keeps the bytes in order, in both directions.
When a packet with an answer that begins like `OKAY` has gone out, the thread has written what came
in for the connection, as far as the number of bytes in the name with which the connection was
opened. -/
theorem sideload_okay {s : Daemon} (h : Run s) (a : Addr) (created : Bool) (rs : List ReadAnswer)
    (ws replies : List WriteAnswer) {v : Service}
    (hthread : thread created rs ws replies (s.traffic a) = some v) (hin : v.input <+: s.written a)
    (hout : s.readFrom a <+: v.reply) (hokay : (given (s.traffic a)).head? = some 79) :
    ∃ name rest count, s.traffic a = .opened name :: rest ∧ serviceCount name = some count ∧
      count.toNat ≤ (taken (s.traffic a)).length ∧
      v.wrote = some ((taken (s.traffic a)).take count.toNat) := by
  obtain ⟨name, rest, count, htraffic, hname, rfl⟩ := thread_eq_some hthread
  obtain ⟨hwritten, hgiven, -, -⟩ := h.sound.streams.inOrder a
  have hreply : (sideloadService created rs ws replies count).reply.head? = some 79 := by
    obtain ⟨rest, hrest⟩ := hgiven.trans hout
    rw [← hrest, List.head?_append, hokay]
    rfl
  obtain ⟨hwrote, hcount⟩ := (sideloadService_spec created rs ws replies count).2 (.inr hreply)
  have hpre := hin.trans hwritten
  have htake := List.prefix_iff_eq_take.mp hpre
  rw [hcount] at htake
  refine ⟨name, rest, count, htraffic, hname, ?_, hwrote.trans (congrArg some htake)⟩
  rw [← hcount]
  exact hpre.length_le

theorem sideload_okay_upload : ∃ s v, Run s ∧ given (s.traffic 1) = cstr "OKAY" ∧
    thread true [.bytes 97 [98, 99]] [.count 5] [.count 3] (s.traffic 1) = some v ∧
    v.wrote = some (cstr "abc") ∧ ∃ name rest count, s.traffic 1 = .opened name :: rest ∧
      serviceCount name = some count ∧ v.wrote = some ((taken (s.traffic 1)).take count.toNat) := by
  obtain ⟨s, h, hwritten, hread, htraffic, -⟩ := exists_upload
  have hthread : thread true [.bytes 97 [98, 99]] [.count 5] [.count 3] (s.traffic 1) =
      some ⟨some (cstr "abc"), cstr "abc", cstr "OKAY", true⟩ := by
    rw [htraffic]
    decide +kernel
  have hgiven : given (s.traffic 1) = cstr "OKAY" := by
    rw [htraffic]
    decide
  obtain ⟨name, rest, count, hopened, hcount, -, hwrote⟩ := sideload_okay h 1 true _ _ _ hthread
    (by rw [hwritten]) (by rw [hread]) (by rw [hgiven]; rfl)
  exact ⟨s, _, h, hgiven, hthread, rfl, name, rest, count, hopened, hcount, hwrote⟩

end Daemon

end OpenRecovery.Sideloader
