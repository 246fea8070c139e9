import ReplicatedBank.CommandLines
import ReplicatedBank.Process

/-!
# The lines of an input file

The loop of `readInput` over a file, with the executor and the listener at work between
the lines.  A round of the loop is computed from the line alone as far as exceptions are
concerned (`readLine_of_fatal`, `readLine_of_not_fatal`): the state of the replica decides
what a line does but never whether it throws.  So the loop gets to the end of the file, or
to an `exit`, exactly if none of the lines it meets is one that throws (`robust_iff`).
-/

namespace ReplicatedBank

/-! ## One line -/

/-- `line.matches("sleep \\d+")`. -/
def matchesSleep (line : String) : Bool :=
  match line.toList.dropPrefix? "sleep ".toList with
  | some cs => !cs.isEmpty && cs.all Char.isDigit
  | none => false

/-- `Integer.parseInt` on the strings the pattern lets through. -/
def parseInt (s : String) : Except JavaException ℕ :=
  if !s.toList.isEmpty && s.toList.all Char.isDigit && digitsValue s.toList < 2 ^ 31
  then .ok (digitsValue s.toList) else .error .numberFormat

/-- A round of the loop in `readInput`. -/
def ReplicatedStateMachine.readLine (m : ReplicatedStateMachine) (line : String) :
    Except Thrown ReplicatedStateMachine :=
  if matchesSleep line then do
    let _time ← m.evaluate (argument (splitSpaces line) 1 >>= parseInt)
    return m
  else m.parseInput line

/-- Whether a line has the arguments that a branch asks for.  Branches that ask for none
ignore them. -/
def HasArguments (line : String) : Command → Prop
  | .unrecognized => False
  | .deposit => matchesDeposit line
  | .addInterest => matchesAddInterest line
  | .checkTxStatus => 3 ≤ (splitSpaces line).length
  | _ => True

/-- A command that the program understands: a `sleep`, or a known word, in any spelling, with
its arguments. -/
def WellFormedLine (line : String) : Prop :=
  matchesSleep line ∨ ∃ c ∈ command? line, HasArguments line c

/-- A line that throws: a `sleep` for longer than an `int` can say, a line of spaces only, or
a `checkTxStatus` without the two parts of an identifier. -/
def Fatal (line : String) : Prop :=
  if matchesSleep line then 2 ^ 31 ≤ digitsValue (afterFirstWord line).tail
  else splitSpaces line = [] ∨
    command? line = some .checkTxStatus ∧ (splitSpaces line).length < 3

instance (line : String) : DecidablePred (HasArguments line) := fun c ↦ by
  cases c <;> unfold HasArguments <;> infer_instance

instance : DecidablePred WellFormedLine := fun line ↦
  inferInstanceAs (Decidable (matchesSleep line ∨ ∃ c ∈ command? line, HasArguments line c))

instance : DecidablePred Fatal := fun line ↦ by
  unfold Fatal
  infer_instance

section

variable {m : ReplicatedStateMachine} {line : String}

theorem matchesSleep_iff : matchesSleep line ↔ firstWord line = "sleep".toList ∧
    ∃ cs, afterFirstWord line = ' ' :: cs ∧ (!cs.isEmpty && cs.all Char.isDigit) := by
  rw [← matches_iff (by decide +kernel)]
  unfold matchesSleep
  rw [show "sleep".toList ++ [' '] = "sleep ".toList by decide +kernel]
  cases line.toList.dropPrefix? "sleep ".toList <;> rfl

/-- The two pieces of a `sleep`. -/
theorem splitSpaces_of_matchesSleep (h : matchesSleep line) :
    splitSpaces line = ["sleep", String.ofList (afterFirstWord line).tail] := by
  obtain ⟨hword, cs, hrest, hcs⟩ := matchesSleep_iff.mp h
  rw [Bool.and_eq_true, Bool.not_eq_true', List.isEmpty_eq_false_iff, List.all_eq_true] at hcs
  have hne : firstWord line ≠ [] := by
    rw [hword]
    decide +kernel
  have hspace : ' ' ∉ cs := fun hmem ↦ absurd (hcs.2 ' ' hmem) (by decide)
  rw [splitSpaces_of_ne_nil hne, hword, hrest, furtherPieces_of_notMem hspace hcs.1,
    String.ofList_toList, List.tail_cons]

/-- A `sleep` throws exactly if its number is too large. -/
theorem readLine_of_matchesSleep (h : matchesSleep line) : m.readLine line =
    if 2 ^ 31 ≤ digitsValue (afterFirstWord line).tail then .error ⟨.numberFormat, m⟩
    else .ok m := by
  obtain ⟨-, cs, hrest, hcs⟩ := matchesSleep_iff.mp h
  have hparse : parseInt (String.ofList cs) =
      if digitsValue cs < 2 ^ 31 then .ok (digitsValue cs) else .error .numberFormat := by
    simp only [parseInt, String.toList_ofList, hcs, Bool.true_and, decide_eq_true_eq]
  have hread : m.readLine line =
      m.evaluate (parseInt (String.ofList cs)) >>= fun _ ↦ .ok m := by
    rw [ReplicatedStateMachine.readLine, if_pos h, splitSpaces_of_matchesSleep h, hrest]
    rfl
  have htail : (afterFirstWord line).tail = cs := by rw [hrest, List.tail_cons]
  rw [hread, hparse, htail]
  by_cases hlt : digitsValue cs < 2 ^ 31
  · rw [if_pos hlt, if_neg (not_le.mpr hlt)]
    rfl
  · rw [if_neg hlt, if_pos (not_lt.mp hlt)]
    rfl

/-- A line that throws leaves the account as it was. -/
theorem readLine_of_fatal (h : Fatal line) :
    ∃ e, m.readLine line = .error e ∧ e.state.replica = m.replica := by
  unfold Fatal at h
  split at h
  · rename_i hs
    exact ⟨_, by rw [readLine_of_matchesSleep hs, if_pos h], rfl⟩
  · rename_i hs
    rw [ReplicatedStateMachine.readLine, if_neg hs]
    rcases h with hnil | ⟨hc, hlen⟩
    · refine ⟨⟨.arrayIndexOutOfBounds, m⟩, ?_, rfl⟩
      rw [ReplicatedStateMachine.parseInput, hnil]
      rfl
    · obtain ⟨word, hword, hc⟩ := Option.map_eq_some_iff.mp hc
      have hword : argument (splitSpaces line) 0 = .ok word := by rw [argument, hword]
      rw [ReplicatedStateMachine.parseInput_of_argument hword, hc]
      rcases m.checkTxStatus_cases line with ⟨lines, hlen', -⟩ | ⟨lines, -, he⟩
      · exact absurd hlen' (by omega)
      · exact ⟨_, he, rfl⟩

/-- Any other line is processed; a malformed one leaves the account as it was, and only an
`exit` ends the reading. -/
theorem readLine_of_not_fatal (h : ¬ Fatal line) : ∃ m', m.readLine line = .ok m' ∧
    (¬ WellFormedLine line → m'.replica = m.replica) ∧
    m'.main = if command? line = some .exit then .exiting else m.main := by
  by_cases hs : matchesSleep line
  · rw [Fatal, if_pos hs] at h
    refine ⟨m, by rw [readLine_of_matchesSleep hs, if_neg h], fun _ ↦ rfl, ?_⟩
    have hc : command? line = some (.ofWord "sleep") := by
      rw [command?, splitSpaces_of_matchesSleep hs]
      rfl
    rw [hc, if_neg (by decide +kernel)]
  rw [Fatal, if_neg hs, not_or] at h
  obtain ⟨word, hget⟩ : ∃ word, (splitSpaces line)[0]? = some word :=
    Option.ne_none_iff_exists'.mp fun hnone ↦ h.1 (by simpa using hnone)
  have hword : argument (splitSpaces line) 0 = .ok word := by rw [argument, hget]
  have hcommand : command? line = some (.ofWord word) := by rw [command?, hget]; rfl
  rw [ReplicatedStateMachine.readLine, if_neg hs,
    ReplicatedStateMachine.parseInput_of_argument hword, hcommand]
  have hwf : HasArguments line (.ofWord word) → WellFormedLine line := fun harguments ↦
    .inr ⟨_, hcommand, harguments⟩
  cases hc : Command.ofWord word with
  | getQuickBalance => exact ⟨_, rfl, fun _ ↦ rfl, rfl⟩
  | getSyncedBalance =>
      refine ⟨_, rfl, fun hn ↦ absurd (hwf (by rw [hc]; trivial)) hn, ?_⟩
      unfold ReplicatedStateMachine.getSyncedBalance
      dsimp only
      split <;> rfl
  | deposit =>
      by_cases hm : matchesDeposit line
      · obtain ⟨amount, -, hd⟩ := ReplicatedStateMachine.deposit_of_matches (m := m) hm
        exact ⟨_, hd, fun hn ↦ absurd (hwf (by rwa [hc])) hn, rfl⟩
      · exact ⟨m, ReplicatedStateMachine.deposit_of_not_matches hm, fun _ ↦ rfl, rfl⟩
  | addInterest =>
      by_cases hm : matchesAddInterest line
      · obtain ⟨percent, -, hd⟩ := ReplicatedStateMachine.addInterest_of_matches (m := m) hm
        exact ⟨_, hd, fun hn ↦ absurd (hwf (by rwa [hc])) hn, rfl⟩
      · exact ⟨m, ReplicatedStateMachine.addInterest_of_not_matches hm, fun _ ↦ rfl, rfl⟩
  | getHistory => exact ⟨_, rfl, fun _ ↦ rfl, rfl⟩
  | checkTxStatus =>
      rcases m.checkTxStatus_cases line with ⟨lines, -, hok⟩ | ⟨lines, hlen, -⟩
      · exact ⟨_, hok, fun _ ↦ rfl, rfl⟩
      · exact absurd ⟨by rw [hcommand, hc], hlen⟩ h.2
  | cleanHistory => exact ⟨_, rfl, fun hn ↦ absurd (hwf (by rw [hc]; trivial)) hn, rfl⟩
  | memberInfo => exact ⟨_, rfl, fun _ ↦ rfl, rfl⟩
  | exit => exact ⟨_, rfl, fun _ ↦ rfl, rfl⟩
  | unrecognized => exact ⟨_, rfl, fun _ ↦ rfl, rfl⟩

end

/-! ## The loop -/

/-- What the other threads do in the meantime. -/
inductive Background where
  /-- The executor runs. -/
  | tick (sent : ℕ)
  /-- The listener is handed a message. -/
  | message (t : Transaction)
  /-- The listener is handed a membership. -/
  | membership (info : MembershipInfo)

def Background.apply (m : ReplicatedStateMachine) : Background → ReplicatedStateMachine
  | .tick sent => (m.broadcast sent).1
  | .message t => AdvancedListener.regularMessageReceived m t
  | .membership info => (AdvancedListener.membershipMessageReceived m info).1

/-- The main thread is its own. -/
theorem Background.apply_main (m : ReplicatedStateMachine) (e : Background) :
    (e.apply m).main = m.main := by
  cases e with
  | tick sent =>
      obtain ⟨lines, h⟩ := m.broadcast_eq sent
      rw [apply, h]
      rfl
  | message t => exact (AdvancedListener.sameProcess_regularMessageReceived m t).main
  | membership info => exact AdvancedListener.membershipMessageReceived_main m info

theorem Background.foldl_main (es : List Background) (m : ReplicatedStateMachine) :
    (es.foldl apply m).main = m.main := by
  induction es generalizing m with
  | nil => rfl
  | cons e es ih => exact (ih _).trans (e.apply_main m)

/-- A round of the loop. -/
structure Round where
  before : ReplicatedStateMachine
  line : String
  outcome : Except Thrown ReplicatedStateMachine

/-- The state in which a round ends. -/
def Round.after (r : Round) : ReplicatedStateMachine :=
  match r.outcome with
  | .ok m => m
  | .error e => e.state

/-- The rounds of `readInput` on a file; some things happen before each line is read.  An
exception ends the loop, and `exit` does not return to it. -/
def readInput : ReplicatedStateMachine → List (List Background × String) → List Round
  | _, [] => []
  | m, (es, line) :: lines =>
      let m := es.foldl Background.apply m
      ⟨m, line, m.readLine line⟩ ::
        match m.readLine line with
        | .ok m' => if m'.main = .reading then readInput m' lines else []
        | .error _ => []

/-- The lines of a file up to an `exit`. -/
def upToExit : List String → List String
  | [] => []
  | line :: lines => if command? line = some .exit then [line] else line :: upToExit lines

/-- Malformed input does no harm: each line up to an `exit` has its round, no round ends in an
exception, and a malformed line leaves the account as it was. -/
structure Robust (m : ReplicatedStateMachine) (lines : List (List Background × String)) : Prop where
  processed : (readInput m lines).map Round.line = upToExit (lines.map Prod.snd)
  isOk : ∀ r ∈ readInput m lines, r.outcome.isOk
  malformed : ∀ r ∈ readInput m lines, ¬ WellFormedLine r.line → r.after.replica = r.before.replica

instance (m : ReplicatedStateMachine) (lines : List (List Background × String)) :
    Decidable (Robust m lines) :=
  decidable_of_iff ((readInput m lines).map Round.line = upToExit (lines.map Prod.snd) ∧
      (∀ r ∈ readInput m lines, r.outcome.isOk) ∧
      ∀ r ∈ readInput m lines, ¬ WellFormedLine r.line → r.after.replica = r.before.replica)
    ⟨fun ⟨h₁, h₂, h₃⟩ ↦ ⟨h₁, h₂, h₃⟩, fun ⟨h₁, h₂, h₃⟩ ↦ ⟨h₁, h₂, h₃⟩⟩

/-- **Malformed input.**  A replica gets through the lines of a file exactly if no line up to
an `exit` is one that throws. -/
theorem robust_iff {m : ReplicatedStateMachine} (hm : m.main = .reading)
    (lines : List (List Background × String)) :
    Robust m lines ↔ ∀ line ∈ upToExit (lines.map Prod.snd), ¬ Fatal line := by
  induction lines generalizing m with
  | nil => exact iff_of_true ⟨rfl, by simp [readInput], by simp [readInput]⟩ (by simp [upToExit])
  | cons head lines ih =>
      obtain ⟨es, line⟩ := head
      have hmain : (es.foldl Background.apply m).main = .reading :=
        (Background.foldl_main es m).trans hm
      by_cases hf : Fatal line
      · obtain ⟨e, he, -⟩ := readLine_of_fatal (m := es.foldl Background.apply m) hf
        refine iff_of_false (fun h ↦ ?_) fun h ↦ h line ?_ hf
        · simpa [he, Except.isOk, Except.toBool] using h.isOk _ List.mem_cons_self
        · rw [List.map_cons, upToExit]
          split <;> exact List.mem_cons_self
      obtain ⟨m', hok, hsame, hm'⟩ := readLine_of_not_fatal (m := es.foldl Background.apply m) hf
      rw [List.map_cons, upToExit]
      by_cases hexit : command? line = some .exit
      · rw [if_pos hexit] at hm' ⊢
        have hrounds : readInput m ((es, line) :: lines) =
            [⟨es.foldl Background.apply m, line, .ok m'⟩] := by
          simp only [readInput, hok, hm', reduceCtorEq, if_false]
        refine iff_of_true ⟨?_, ?_, ?_⟩ (by simpa using hf)
        · rw [hrounds, List.map_cons, List.map_cons, upToExit, if_pos hexit, List.map_nil]
        · rw [hrounds]
          simp [Except.isOk, Except.toBool]
        · rw [hrounds]
          simpa [Round.after] using hsame
      · rw [if_neg hexit, hmain] at hm'
        have hrounds : readInput m ((es, line) :: lines) =
            ⟨es.foldl Background.apply m, line, .ok m'⟩ :: readInput m' lines := by
          simp only [readInput, hok, hm', if_true]
        rw [if_neg hexit, List.forall_mem_cons, and_iff_right hf, ← ih hm']
        constructor
        · rintro ⟨hp, hk, hw⟩
          rw [hrounds] at hp hk hw
          rw [List.map_cons, List.map_cons, upToExit, if_neg hexit, List.cons_eq_cons] at hp
          exact ⟨hp.2, (List.forall_mem_cons.mp hk).2, (List.forall_mem_cons.mp hw).2⟩
        · rintro ⟨hp, hk, hw⟩
          refine ⟨?_, ?_, ?_⟩
          · rw [hrounds, List.map_cons, List.map_cons, upToExit, if_neg hexit, hp]
          · rw [hrounds]
            exact List.forall_mem_cons.mpr ⟨rfl, hk⟩
          · rw [hrounds]
            exact List.forall_mem_cons.mpr ⟨hsame, hw⟩

/-- The file may end in lines that are never read. -/
theorem robust_iff_exit : Robust (.new "Rep1" "#Rep1-17" 1) [([], "deposit 100"),
    ([.tick 1], "deposit"), ([], "sleep 10"), ([], "exit"), ([], "checkTxStatus")] :=
  (robust_iff rfl _).mpr (by decide +kernel)

/-- The first lines of `input.txt`: the fifth one ends the main thread. -/
theorem not_robust_checkTxStatus : ¬ Robust (.new "Rep1" "#Rep1-17" 1) [([], "memberInfo"),
    ([], "getSyncedBalance"), ([], "getQuickBalance"), ([], "deposit 100"),
    ([], "checkTxStatus")] := by
  decide +kernel

end ReplicatedBank
