import OpenRecovery.Recovery.FileLines
import OpenRecovery.Updater.Script

/-!
# The command pipe from the updater to the recovery

The recovery reads what the updater writes to the pipe with `fgets` into a buffer of 1024 bytes and
takes each buffer for a command (`try_update_binary`). `UIPrintFn` and the end of the updater's
`main` write a `ui_print` command for each line of a text.

A line of up to 1014 bytes comes out as it went in. The rest of a longer one is taken for a command
of its own, and that is never just the text again: `commandPipe_iff`.
-/

set_option autoImplicit false

namespace OpenRecovery.Recovery

open OpenRecovery.Crash OpenRecovery.Edify OpenRecovery.Storage OpenRecovery.Updater

/-! ## The reader -/

/-- The commands, with the texts of their arguments. -/
inductive UiCommand where
  | progress (fraction seconds : Option Bytes)
  | setProgress (fraction : Option Bytes)
  | uiPrint (str : Option Bytes)
  | wipeCache
  | unknown (command : Bytes)
deriving DecidableEq

/-- One round of the loop in `try_update_binary`. -/
def decodeBuffer (buffer : Bytes) : Option UiCommand :=
  match strtokNext isSpaceOrNewline buffer with
  | none => none
  | some (command, rest) =>
    if command = cstr "progress" then
      match strtokNext isSpaceOrNewline rest with
      | none => some (.progress none none)
      | some (fraction, rest) => some (.progress (some fraction) (nextToken isSpaceOrNewline rest))
    else if command = cstr "set_progress" then
      some (.setProgress (nextToken isSpaceOrNewline rest))
    -- the text is a token up to the line end, so the spaces in it stay
    else if command = cstr "ui_print" then some (.uiPrint (nextToken isNewline rest))
    else if command = cstr "wipe_cache" then some .wipeCache
    else some (.unknown command)

/-- The strings that `fgets` gives until the stream ends, at most `fuel` of them. -/
def buffersFrom : Nat → Bytes → List Bytes
  | 0, _ => []
  | fuel + 1, stream =>
      if stream = [] then []
      -- every buffer is decoded by itself, also one that does not end in a newline
      else (fgets 1023 stream).1 :: buffersFrom fuel (fgets 1023 stream).2

/-- `char buffer[1024]`, filled again and again. -/
def buffers (stream : Bytes) : List Bytes := buffersFrom stream.length stream

/-- The commands that the recovery sees. -/
def decodeCommands (stream : Bytes) : List UiCommand := (buffers stream).filterMap decodeBuffer

/-! ## The buffers of a stream -/

theorem buffersFrom_eq_piecesFrom (fuel : Nat) (stream : Bytes) :
    buffersFrom fuel stream = piecesFrom 1023 fuel stream := by
  induction fuel generalizing stream with
  | zero => rfl
  | succ fuel ih => rw [buffersFrom, piecesFrom, ih]

theorem buffers_cons {stream : Bytes} (h : stream ≠ []) :
    buffers stream = (fgets 1023 stream).1 :: buffers (fgets 1023 stream).2 := by
  rw [buffers, buffers, buffersFrom_eq_piecesFrom, buffersFrom_eq_piecesFrom]
  exact pieces_cons (by omega) h

theorem decodeCommands_cons {stream : Bytes} (h : stream ≠ []) :
    decodeCommands stream =
      (decodeBuffer (fgets 1023 stream).1).toList ++ decodeCommands (fgets 1023 stream).2 := by
  rw [decodeCommands, buffers_cons h, List.filterMap_cons]
  cases decodeBuffer (fgets 1023 stream).1 <;> rfl

/-- The command in a line that fits. -/
theorem decodeCommands_line {line : Bytes} (rest : Bytes) (hline : newline ∉ line)
    (hn : line.length < 1023) :
    decodeCommands (line ++ newline :: rest) =
      (decodeBuffer (line ++ [newline])).toList ++ decodeCommands rest := by
  rw [decodeCommands_cons (by simp), fgets_line rest hline hn]

/-- The command in the first part of a line that does not fit. -/
theorem decodeCommands_cut {line : Bytes} (rest : Bytes) (hline : newline ∉ line)
    (hn : line.length = 1023) :
    decodeCommands (line ++ rest) = (decodeBuffer line).toList ++ decodeCommands rest := by
  have hne : line ++ rest ≠ [] := by
    intro h
    have := congrArg List.length h
    simp [hn] at this
  have hcut := fgets_cut rest hline
  rw [hn] at hcut
  rw [decodeCommands_cons hne, hcut]

/-! ## What a buffer says -/

/-- The text that a command puts on the screen, the final line break apart. -/
def payload : UiCommand → Bytes
  | .uiPrint (some str) => str
  | _ => []

/-- A buffer is longer than the text of its command, by at least the name of the command. -/
theorem payload_length {buffer : Bytes} {cmd : UiCommand} (h : decodeBuffer buffer = some cmd) :
    payload cmd = [] ∨ (payload cmd).length + 8 ≤ buffer.length := by
  unfold decodeBuffer at h
  cases htok : strtokNext isSpaceOrNewline buffer with
  | none =>
      rw [htok] at h
      cases h
  | some r =>
      obtain ⟨command, rest⟩ := r
      have hlen := strtokNext_length htok
      rw [htok] at h
      simp only at h
      split at h
      · left
        cases h2 : strtokNext isSpaceOrNewline rest <;> rw [h2] at h <;> cases h <;> rfl
      · split at h
        · left
          cases h
          rfl
        · split at h
          · next hcmd =>
              cases h
              unfold nextToken
              cases hstr : strtokNext isNewline rest with
              | none => exact .inl rfl
              | some r =>
                  right
                  have hlen' := strtokNext_length hstr
                  have hname : command.length = 8 := by rw [hcmd]; rfl
                  change r.1.length + 8 ≤ buffer.length
                  omega
          · split at h
            · left
              cases h
              rfl
            · left
              cases h
              rfl

/-- The total length of the texts. -/
def shown (cmds : List UiCommand) : Nat := (cmds.flatMap payload).length

theorem shown_append (a b : List UiCommand) : shown (a ++ b) = shown a + shown b := by
  simp [shown]

/-- Text in the place of a command loses at least a byte. -/
theorem shown_lt {text : Bytes} (htext : text ≠ []) {e : Bytes} (he : e.length ≤ 1) :
    shown (decodeBuffer (text ++ e)).toList < text.length := by
  have hpos : 0 < text.length := List.length_pos_iff.mpr htext
  cases hdec : decodeBuffer (text ++ e) with
  | none => exact hpos
  | some cmd =>
      have hlen := payload_length hdec
      rw [List.length_append] at hlen
      simp only [shown, Option.toList_some, List.flatMap_cons, List.flatMap_nil, List.append_nil]
      rcases hlen with hnil | hlt
      · rw [hnil]
        exact hpos
      · omega

/-- The empty rest of a line that filled the buffer is skipped. -/
theorem decodeCommands_newline (rest : Bytes) :
    decodeCommands (newline :: rest) = decodeCommands rest := by
  have h := @decodeCommands_line [] rest (by simp) (by simp)
  rw [show decodeBuffer ([] ++ [newline]) = none from rfl] at h
  exact h

/-- What is left of a line is not shown in full. -/
theorem shown_rest_lt {text : Bytes} (rest : Bytes) (hline : newline ∉ text) (htext : text ≠ []) :
    shown (decodeCommands (text ++ newline :: rest)) <
      text.length + shown (decodeCommands rest) := by
  -- induction on the length: each full buffer takes 1023 bytes and shows at most 1015 of them
  induction hlen : text.length using Nat.strong_induction_on generalizing text with
  | _ n ih =>
      subst hlen
      by_cases hshort : text.length < 1023
      · rw [decodeCommands_line rest hline hshort, shown_append]
        have hlt := shown_lt htext (e := [newline]) (by simp)
        omega
      · -- a full buffer, and what comes after it
        have htake : (text.take 1023).length = 1023 := List.length_take_of_le (by omega)
        have hsplit : text.take 1023 ++ text.drop 1023 = text := List.take_append_drop 1023 text
        have hfull : newline ∉ text.take 1023 := fun h => hline (List.mem_of_mem_take h)
        have hrest : newline ∉ text.drop 1023 := fun h => hline (List.mem_of_mem_drop h)
        have hne : text.take 1023 ≠ [] := by
          intro h
          rw [h] at htake
          simp at htake
        have hlt := shown_lt hne (e := []) (by simp)
        rw [List.append_nil, htake] at hlt
        have hdrop : (text.drop 1023).length = text.length - 1023 := List.length_drop
        rw [← hsplit, List.append_assoc, decodeCommands_cut _ hfull htake, shown_append, hsplit]
        by_cases hnil : text.drop 1023 = []
        · rw [hnil, List.nil_append, decodeCommands_newline]
          omega
        · have hih := ih _ (by omega) hrest hnil rfl
          omega

/-! ## What the writer sends -/

/-- The command for one line of text. -/
def lineCommand (line : Bytes) : Bytes := cstr "ui_print " ++ line ++ cstr "\n"

/-- All that is written for a text. -/
def printCommands (s : Bytes) : Bytes :=
  (strtok newline s).flatMap lineCommand ++ cstr "ui_print\n"

theorem takeWhile_line {line : Bytes} (hline : newline ∉ line) (e : Bytes) (he : e = [] ∨ e = [newline]) :
    (line ++ e).takeWhile (fun c => !isNewline c) = line := by
  have hall : ∀ c ∈ line, (!isNewline c) = true := by
    intro c hc
    have hne : c ≠ newline := fun h => hline (h ▸ hc)
    simp [isNewline, hne]
  rw [List.takeWhile_append_of_pos hall]
  rcases he with rfl | rfl
  · simp
  · simp [isNewline]

/-- A buffer with one `ui_print` command. -/
theorem decodeBuffer_line {line : Bytes} (hline : newline ∉ line) (hne : line ≠ []) (e : Bytes)
    (he : e = [] ∨ e = [newline]) :
    decodeBuffer (cstr "ui_print " ++ line ++ e) = some (.uiPrint (some line)) := by
  have hfirst : strtokNext isSpaceOrNewline (cstr "ui_print " ++ line ++ e) =
      some (cstr "ui_print", line ++ e) := rfl
  have hdrop : (line ++ e).dropWhile isNewline = line ++ e := by
    obtain ⟨c, line, rfl⟩ := List.exists_cons_of_ne_nil hne
    have hc : c ≠ newline := fun h => hline (by simp [h])
    rw [List.cons_append, List.dropWhile_cons_of_neg (by simp [isNewline, hc])]
  have hnext : nextToken isNewline (line ++ e) = some line := by
    unfold nextToken strtokNext
    simp only [hdrop]
    rw [if_neg (by simp [hne]), Option.map_some, takeWhile_line hline e he]
  rw [decodeBuffer, hfirst]
  simp only [hnext]
  rfl

theorem not_mem_command {line : Bytes} (hline : newline ∉ line) :
    newline ∉ cstr "ui_print " ++ line := by
  rw [List.mem_append]
  exact not_or.mpr ⟨by decide, hline⟩

theorem lineCommand_append (line rest : Bytes) :
    lineCommand line ++ rest = (cstr "ui_print " ++ line) ++ newline :: rest := by
  rw [lineCommand, List.append_assoc _ (cstr "\n")]
  rfl

/-- A line of at most 1014 bytes arrives. -/
theorem decodeCommands_short {line : Bytes} (rest : Bytes) (hline : newline ∉ line)
    (hne : line ≠ []) (hlen : line.length ≤ 1014) :
    decodeCommands (lineCommand line ++ rest) = .uiPrint (some line) :: decodeCommands rest := by
  have htotal : (cstr "ui_print " ++ line).length = 9 + line.length := List.length_append
  rw [lineCommand_append]
  -- the name and the space take 9 bytes, which leaves 1014 for the line and its newline
  by_cases hfits : line.length ≤ 1013
  · rw [decodeCommands_line rest (not_mem_command hline) (by omega),
      decodeBuffer_line hline hne [newline] (.inr rfl)]
    rfl
  · -- the newline is left for the next buffer
    have hbuf := decodeBuffer_line hline hne [] (.inl rfl)
    rw [List.append_nil] at hbuf
    rw [decodeCommands_cut _ (not_mem_command hline) (by omega), hbuf, decodeCommands_newline]
    rfl

/-- A longer line does not. -/
theorem shown_long_lt {line : Bytes} (rest : Bytes) (hline : newline ∉ line)
    (hlen : 1014 < line.length) :
    shown (decodeCommands (lineCommand line ++ rest)) <
      line.length + shown (decodeCommands rest) := by
  have htake : (line.take 1014).length = 1014 := List.length_take_of_le (by omega)
  have hsplit : line.take 1014 ++ line.drop 1014 = line := List.take_append_drop 1014 line
  have hfull : newline ∉ line.take 1014 := fun h => hline (List.mem_of_mem_take h)
  have hrest : newline ∉ line.drop 1014 := fun h => hline (List.mem_of_mem_drop h)
  have hdrop : (line.drop 1014).length = line.length - 1014 := List.length_drop
  have hbuf := decodeBuffer_line hfull (by intro h; rw [h] at htake; simp at htake) [] (.inl rfl)
  rw [List.append_nil] at hbuf
  have hlt := shown_rest_lt rest hrest (by intro h; rw [h] at hdrop; simp at hdrop; omega)
  have htotal : (cstr "ui_print " ++ line.take 1014).length = 1023 := by
    rw [List.length_append, htake]
    rfl
  have hstream : lineCommand line ++ rest =
      (cstr "ui_print " ++ line.take 1014) ++ (line.drop 1014 ++ newline :: rest) := by
    rw [lineCommand_append, List.append_assoc, List.append_assoc, ← List.append_assoc (line.take _),
      hsplit]
  rw [hstream, decodeCommands_cut _ (not_mem_command hfull) htotal, hbuf, shown_append]
  have hone : shown (some (UiCommand.uiPrint (some (line.take 1014)))).toList = 1014 := by
    rw [← htake]
    simp [shown, payload]
  omega

/-! ## Whole texts -/

/-- The commands only print, and what they print makes up `s` without its line breaks. -/
def Conveys (s stream : Bytes) : Prop :=
  (∀ cmd ∈ decodeCommands stream, ∃ str, cmd = .uiPrint str) ∧
    (decodeCommands stream).flatMap payload = s.filter (· ≠ newline)

/-- A list of lines as `strtok` cuts them. -/
def IsLines (lines : List Bytes) : Prop := ∀ line ∈ lines, newline ∉ line ∧ line ≠ []

theorem isLines_strtok (s : Bytes) : IsLines (strtok newline s) := fun _ h =>
  ⟨not_mem_of_mem_strtok h, ne_nil_of_mem_strtok h⟩

theorem decodeCommands_end : decodeCommands (cstr "ui_print\n") = [.uiPrint none] := rfl

theorem decodeCommands_lines {lines : List Bytes} (hlines : IsLines lines)
    (hshort : ∀ line ∈ lines, line.length ≤ 1014) :
    decodeCommands (lines.flatMap lineCommand ++ cstr "ui_print\n") =
      lines.map (fun line => .uiPrint (some line)) ++ [.uiPrint none] := by
  induction lines with
  | nil => exact decodeCommands_end
  | cons line lines ih =>
      obtain ⟨hline, hne⟩ := hlines line (List.mem_cons_self ..)
      rw [List.flatMap_cons, List.append_assoc,
        decodeCommands_short _ hline hne (hshort line (List.mem_cons_self ..)),
        ih (fun l hl => hlines l (List.mem_cons_of_mem _ hl))
          (fun l hl => hshort l (List.mem_cons_of_mem _ hl))]
      rfl

/-- No text gets longer on its way, and a line that is too long makes it shorter. -/
theorem shown_lines {lines : List Bytes} (hlines : IsLines lines) :
    shown (decodeCommands (lines.flatMap lineCommand ++ cstr "ui_print\n")) ≤
        lines.flatten.length ∧
      ((∃ line ∈ lines, 1014 < line.length) →
        shown (decodeCommands (lines.flatMap lineCommand ++ cstr "ui_print\n")) <
          lines.flatten.length) := by
  induction lines with
  | nil => exact ⟨Nat.le_refl 0, by simp⟩
  | cons line lines ih =>
      obtain ⟨hline, hne⟩ := hlines line (List.mem_cons_self ..)
      obtain ⟨hle, hlt⟩ := ih fun l hl => hlines l (List.mem_cons_of_mem _ hl)
      rw [List.flatMap_cons, List.append_assoc, List.flatten_cons, List.length_append]
      by_cases hlen : line.length ≤ 1014
      · rw [decodeCommands_short _ hline hne hlen]
        have hcons : ∀ cmds, shown (.uiPrint (some line) :: cmds) = line.length + shown cmds := by
          intro cmds
          simp [shown, payload]
        rw [hcons]
        refine ⟨by omega, ?_⟩
        rintro ⟨l, hl, hlong⟩
        rcases List.mem_cons.mp hl with rfl | hl
        · omega
        · have := hlt ⟨l, hl, hlong⟩
          omega
      · have hlong := shown_long_lt (lines.flatMap lineCommand ++ cstr "ui_print\n") hline
          (by omega)
        exact ⟨by omega, fun _ => by omega⟩

/-- A text arrives exactly if none of its lines is longer than 1014 bytes. -/
theorem conveys_iff (s : Bytes) :
    Conveys s (printCommands s) ↔ ∀ line ∈ strtok newline s, line.length ≤ 1014 := by
  constructor
  · rintro ⟨-, htext⟩ line hline
    by_contra hlong
    -- counting the bytes shown is enough: the total is too small, whatever the commands are
    have hlt := (shown_lines (isLines_strtok s)).2 ⟨line, hline, by omega⟩
    have heq := congrArg List.length htext
    rw [← strtok_flatten] at heq
    unfold shown at hlt
    unfold printCommands at heq
    omega
  · intro hshort
    have hdec := decodeCommands_lines (isLines_strtok s) hshort
    constructor
    · intro cmd hcmd
      rw [printCommands, hdec, List.mem_append, List.mem_map, List.mem_singleton] at hcmd
      rcases hcmd with ⟨line, -, rfl⟩ | rfl
      · exact ⟨_, rfl⟩
      · exact ⟨_, rfl⟩
    · rw [printCommands, hdec, ← strtok_flatten, List.flatMap_append, List.flatMap_map]
      simp [payload, List.flatMap_def]

/-! ## The programs that write -/

/-- What a trace has written to the pipe. -/
def piped {Op : Type} {Res : Op → Type} (text : Op → Bytes) (t : Trace Op Res) : Bytes :=
  t.flatMap fun e => text e.1

/-- The text of a write to the pipe. -/
def ownText : Own → Bytes
  | .cmdPipe text => text
  | _ => []

def sysText : Sys → Bytes
  | .own o => ownText o
  | _ => []

theorem piped_uiPrintLines {lines : List Bytes} {t : Trace Own Own.Res} {out : Option Unit}
    (h : Yields (uiPrintLines lines) t out) :
    piped ownText t = lines.flatMap lineCommand ++ cstr "ui_print\n" := by
  induction lines generalizing t with
  | nil =>
      cases h with
      | op h =>
          cases h
          rfl
  | cons line lines ih =>
      cases h with
      | op h =>
          have hrest := ih h
          change lineCommand line ++ piped ownText _ = _
          rw [hrest, List.flatMap_cons, List.append_assoc]

/-- Every run of the program ends, whatever the pipe answers. -/
theorem yields_uiPrintLines (lines : List Bytes) :
    ∃ t, Yields (uiPrintLines lines) t (some ()) := by
  induction lines with
  | nil => exact ⟨_, .op (r := ()) (.ret ())⟩
  | cons line lines ih =>
      obtain ⟨t, ht⟩ := ih
      exact ⟨_, .op (r := ()) ht⟩

/-- What a program has written does not depend on the operations it is lifted to. -/
theorem piped_lift {α : Type} {p : OwnProg α} {t : Trace Sys Sys.Res} {out : Option α}
    (h : Yields (p.lift Sys.own fun _ r => r) t out) :
    ∃ t', Yields p t' out ∧ piped sysText t = piped ownText t' := by
  induction p generalizing t with
  | ret a =>
      cases h
      exact ⟨[], .ret a, rfl⟩
  | halt =>
      cases h
      exact ⟨[], .halt, rfl⟩
  | op o k ih =>
      cases h with
      | @op _ _ r t _ h =>
          obtain ⟨t', ht', heq⟩ := ih r h
          refine ⟨⟨o, r⟩ :: t', .op ht', ?_⟩
          change ownText o ++ piped sysText t = ownText o ++ piped ownText t'
          rw [heq]

theorem piped_reportResult {s : Bytes} {t : Trace Own Own.Res} {out : Option Nat}
    (h : Yields (reportResult none (some s)) t out) : piped ownText t = printCommands s := by
  rcases yields_bind h with ⟨hdead, -⟩ | ⟨t₁, t₂, a, rfl, hlines, hret⟩
  · exact piped_uiPrintLines hdead
  · obtain ⟨rfl, -⟩ := yields_ret hret
    rw [List.append_nil]
    exact piped_uiPrintLines hlines

theorem piped_own {α : Type} {p : OwnProg α} {m : Option Bytes} {t : Trace Sys Sys.Res}
    {out : Option (α × Option Bytes)} (h : Yields (Eval.own p m) t out) :
    ∃ t' out', Yields p t' out' ∧ piped sysText t = piped ownText t' := by
  have hbind : Yields ((p.lift Sys.own fun _ r => r) >>= fun a => .ret (a, m)) t out := h
  rcases yields_bind hbind with ⟨hlift, -⟩ | ⟨t₁, t₂, a, rfl, hlift, hret⟩
  · obtain ⟨t', ht', heq⟩ := piped_lift hlift
    exact ⟨t', none, ht', heq⟩
  · obtain ⟨t', ht', heq⟩ := piped_lift hlift
    obtain ⟨rfl, -⟩ := yields_ret hret
    rw [List.append_nil]
    exact ⟨t', some a, ht', heq⟩

/-- A function writes nothing after its own program. -/
theorem piped_finish {p : OwnProg (Except Bytes Result)} {m : Option Bytes}
    {t : Trace Sys Sys.Res} {out : Option (Option Value × Option Bytes)}
    (h : Yields (finish p m) t out) :
    ∃ t' out', Yields p t' out' ∧ piped sysText t = piped ownText t' := by
  rcases yields_bind (p := Eval.own p m) h with ⟨hdead, -⟩ | ⟨t₁, t₂, r, rfl, hown, hend⟩
  · exact piped_own hdead
  · have hempty : t₂ = [] := by
      rcases r with ⟨_ | _, _⟩
      · exact (yields_ret hend).1
      · exact (yields_ret hend).1
    rw [hempty, List.append_nil]
    exact piped_own hown

theorem piped_uiPrintFn {args : List Bytes} {m : Option Bytes} {t : Trace Sys Sys.Res}
    {out : Option (Option Value × Option Bytes)}
    (h : Yields (uiPrintFn (literalCall .uiPrint (cstr "ui_print") args) m) t out) :
    piped sysText t = printCommands args.flatten := by
  have hread := readArgs_literalCall .uiPrint (cstr "ui_print") args m
  unfold uiPrintFn withArgs Eval.orNull Eval.bind at h
  rw [hread] at h
  cases h with
  | op h =>
      obtain ⟨t', out', ht', heq⟩ := piped_finish h
      refine Eq.trans heq ?_
      rcases yields_bind ht' with ⟨hdead, -⟩ | ⟨t₁, t₂, a, rfl, hlines, hret⟩
      · exact piped_uiPrintLines hdead
      · obtain ⟨rfl, -⟩ := yields_ret hret
        rw [List.append_nil]
        exact piped_uiPrintLines hlines

/-- The end of `main` has a run, so it sends the commands for its message. -/
theorem conveys_of_reportResult {s : Bytes}
    (h : ∀ (t : Trace Own Own.Res) (out : Option Nat),
      Yields (reportResult none (some s)) t out → Conveys s (piped ownText t)) :
    Conveys s (printCommands s) := by
  obtain ⟨t, ht⟩ := yields_uiPrintLines (strtok newline s)
  have hrun : Yields (reportResult none (some s)) (t ++ []) (some 7) := ht.bind (.ret 7)
  have hconveys := h _ _ hrun
  rwa [piped_reportResult hrun] at hconveys

/-- What `UIPrintFn` and the updater's `main` send for the text `s` is shown as `s`, exactly if no
line of `s` is longer than 1014 bytes. -/
theorem commandPipe_iff (s : Bytes) :
    ((∀ (args : List Bytes) (m : Option Bytes) (t : Trace Sys Sys.Res)
        (out : Option (Option Value × Option Bytes)), args.flatten = s →
        Yields (uiPrintFn (literalCall .uiPrint (cstr "ui_print") args) m) t out →
        Conveys s (piped sysText t)) ∧
      ∀ (t : Trace Own Own.Res) (out : Option Nat),
        Yields (reportResult none (some s)) t out → Conveys s (piped ownText t)) ↔
      ∀ line ∈ strtok newline s, line.length ≤ 1014 := by
  rw [← conveys_iff]
  constructor
  · rintro ⟨-, hmain⟩
    exact conveys_of_reportResult hmain
  · intro hconveys
    constructor
    · intro args m t out hargs hrun
      rw [piped_uiPrintFn hrun, hargs]
      exact hconveys
    · intro t out hrun
      rw [piped_reportResult hrun]
      exact hconveys

namespace Sample

/-- A line of 1014 bytes, and then the name of a command. -/
def longLine : Bytes := List.replicate 1014 97 ++ cstr "wipe_cache"

/-- The text wipes the cache. -/
theorem longLine_wipes :
    UiCommand.wipeCache ∈ decodeCommands (printCommands longLine) ∧
      ¬ ((∀ (args : List Bytes) (m : Option Bytes) (t : Trace Sys Sys.Res)
        (out : Option (Option Value × Option Bytes)), args.flatten = longLine →
        Yields (uiPrintFn (literalCall .uiPrint (cstr "ui_print") args) m) t out →
        Conveys longLine (piped sysText t)) ∧
      ∀ (t : Trace Own Own.Res) (out : Option Nat),
        Yields (reportResult none (some longLine)) t out → Conveys longLine (piped ownText t)) := by
  have hwipes : UiCommand.wipeCache ∈ decodeCommands (printCommands longLine) := by
    decide +kernel
  refine ⟨hwipes, ?_⟩
  rintro ⟨-, hmain⟩
  -- a text that arrives gives only print commands
  obtain ⟨str, hstr⟩ := (conveys_of_reportResult hmain).1 _ hwipes
  cases hstr

end Sample

end OpenRecovery.Recovery
