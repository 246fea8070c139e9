import ReplicatedBank.ParseInput

/-!
# The words of a command line

`parseInput` looks at a line twice.  It dispatches on the first word in lower case; the
branches for `deposit` and `addInterest` then match the whole line against a pattern in
which the command word is spelled out.  Here the two are brought together: the pieces of a
line are computed from its first word and what follows it (`splitSpaces_of_ne_nil`), a line
that a pattern lets through is never stopped by an exception (`deposit_of_matches`,
`addInterest_of_matches`), and two spellings of a line have the same effect exactly if each
pattern treats them alike (`sameEffect_iff`).
-/

namespace ReplicatedBank

/-! ## The first word -/

/-- The characters before the first space. -/
def firstWord (line : String) : List Char := line.toList.takeWhile (· ≠ ' ')

/-- The characters from the first space on. -/
def afterFirstWord (line : String) : List Char := line.toList.dropWhile (· ≠ ' ')

/-- The pieces of a line that come after its first word. -/
def furtherPieces : List Char → List String
  | [] => []
  | _ :: cs => ((cs.splitOn ' ').rdropWhile List.isEmpty).map String.ofList

/-- The case of the `switch` that a line gets to, if it has a first piece. -/
def command? (line : String) : Option Command := (splitSpaces line)[0]?.map Command.ofWord

variable {line input : String}

theorem firstWord_append_afterFirstWord (line : String) :
    firstWord line ++ afterFirstWord line = line.toList := List.takeWhile_append_dropWhile

theorem space_notMem_firstWord (line : String) : ' ' ∉ firstWord line := fun h ↦ by
  simpa using List.mem_takeWhile_imp h

/-- What follows the first word is nothing, or a space and more. -/
theorem afterFirstWord_cases (line : String) :
    afterFirstWord line = [] ∨ ∃ cs, afterFirstWord line = ' ' :: cs := by
  cases h : afterFirstWord line with
  | nil => exact .inl rfl
  | cons c cs =>
      have hc := List.head?_dropWhile_not (· ≠ ' ') line.toList
      rw [← afterFirstWord, h] at hc
      obtain rfl : c = ' ' := by simpa using hc
      exact .inr ⟨cs, rfl⟩

/-- A line is taken apart at its first space. -/
theorem firstWord_of_toList {w rest : List Char} (h : line.toList = w ++ rest) (hw : ' ' ∉ w)
    (hrest : rest.head? = some ' ' ∨ rest = []) :
    firstWord line = w ∧ afterFirstWord line = rest := by
  have hall : ∀ c ∈ w, decide (c ≠ ' ') = true := fun c hc ↦ by
    simpa using fun heq : c = ' ' ↦ hw (heq ▸ hc)
  rw [firstWord, afterFirstWord, h, List.takeWhile_append_of_pos hall,
    List.dropWhile_append_of_pos hall]
  rcases hrest with hrest | rfl
  · cases rest with
    | nil => simp at hrest
    | cons c cs =>
        obtain rfl : c = ' ' := by simpa using hrest
        simp
  · simp

/-- **The pieces of a line** that does not begin with a space: its first word, and what
comes after it. -/
theorem splitSpaces_of_ne_nil (h : firstWord line ≠ []) :
    splitSpaces line = String.ofList (firstWord line) :: furtherPieces (afterFirstWord line) := by
  have hline := firstWord_append_afterFirstWord line
  have hspace := space_notMem_firstWord line
  unfold splitSpaces
  rw [← hline]
  rcases afterFirstWord_cases line with hrest | ⟨cs, hrest⟩ <;> rw [hrest] at hline ⊢
  · rw [List.append_nil] at hline ⊢
    rw [List.splitOn_eq_singleton hspace]
    dsimp only [furtherPieces]
    rw [List.length_singleton, if_pos rfl, hline, String.ofList_toList]
  · rw [List.splitOn_append_cons_self_of_not_mem hspace]
    dsimp only [furtherPieces]
    rw [if_neg]
    · have hkeep : List.rdropWhile List.isEmpty (firstWord line :: cs.splitOn ' ') =
          firstWord line :: (cs.splitOn ' ').rdropWhile List.isEmpty := by
        rw [List.rdropWhile, List.reverse_cons, List.dropWhile_append]
        split
        · rename_i hnil
          rw [List.rdropWhile, List.isEmpty_iff.mp hnil]
          simp [h]
        · rw [List.reverse_append]
          rfl
      rw [hkeep, List.map_cons]
    · have := List.length_pos_of_ne_nil (List.splitOn_ne_nil ' ' cs)
      simp only [List.length_cons]
      omega

theorem argument_zero (h : firstWord line ≠ []) :
    argument (splitSpaces line) 0 = .ok (String.ofList (firstWord line)) := by
  rw [splitSpaces_of_ne_nil h]
  rfl

/-- A single argument. -/
theorem furtherPieces_of_notMem {cs : List Char} (h : ' ' ∉ cs) (hne : cs ≠ []) :
    furtherPieces (' ' :: cs) = [String.ofList cs] := by
  rw [furtherPieces, List.splitOn_eq_singleton h, List.rdropWhile_singleton, if_neg]
  · rfl
  · simpa using hne

/-! ## What the patterns let through -/

/-- A number has no space in it, and is not empty. -/
theorem of_matchesNumber {cs : List Char} (h : matchesNumber cs) : ' ' ∉ cs ∧ cs ≠ [] := by
  have happend : cs = cs.takeWhile Char.isDigit ++ cs.dropWhile Char.isDigit :=
    List.takeWhile_append_dropWhile.symm
  have hdigit : ∀ {ds : List Char}, (∀ d ∈ ds, d.isDigit) → ' ' ∉ ds := fun hds hd ↦
    absurd (hds _ hd) (by decide)
  have hwhole : ' ' ∉ cs.takeWhile Char.isDigit := hdigit fun d hd ↦ List.mem_takeWhile_imp hd
  rw [matchesNumber, List.span_eq_takeWhile_dropWhile] at h
  simp only [Bool.and_eq_true, Bool.not_eq_true', List.isEmpty_eq_false_iff] at h
  obtain ⟨hne, h⟩ := h
  refine ⟨?_, fun hnil ↦ hne (by rw [hnil]; rfl)⟩
  rw [happend, List.mem_append, not_or]
  refine ⟨hwhole, ?_⟩
  split at h
  · rename_i heq
    rw [heq]
    exact List.not_mem_nil
  · rename_i fraction heq
    rw [heq]
    simp only [Bool.and_eq_true, List.all_eq_true] at h
    intro hmem
    rcases List.mem_cons.mp hmem with hc | hmem
    · exact absurd hc (by decide)
    · exact hdigit h.2 hmem
  · cases h

/-- `-?\d+(\.\d+)?`. -/
def matchesSigned : List Char → Bool
  | '-' :: cs => matchesNumber cs
  | cs => matchesNumber cs

theorem of_matchesSigned {cs : List Char} (h : matchesSigned cs) : ' ' ∉ cs ∧ cs ≠ [] := by
  unfold matchesSigned at h
  split at h
  · refine ⟨fun hmem ↦ ?_, List.cons_ne_nil _ _⟩
    rcases List.mem_cons.mp hmem with hc | hmem
    · exact absurd hc (by decide)
    · exact (of_matchesNumber h).1 hmem
  · exact of_matchesNumber h

theorem matchesSigned_of_matchesNumber {cs : List Char} (h : matchesNumber cs) :
    matchesSigned cs := by
  unfold matchesSigned
  split
  · exact absurd h (by simp [matchesNumber, List.span_eq_takeWhile_dropWhile])
  · exact h

theorem parseDouble_of_matchesSigned {cs : List Char} (h : matchesSigned cs) :
    ∃ x, parseDouble (String.ofList cs) = .ok x := by
  rw [parseDouble, String.toList_ofList]
  by_cases hsign : ∃ ds, cs = '-' :: ds
  · obtain ⟨ds, rfl⟩ := hsign
    exact ⟨_, if_pos h⟩
  · have hsigned : matchesSigned cs = matchesNumber cs := by
      unfold matchesSigned
      split
      · exact absurd ⟨_, rfl⟩ hsign
      · rfl
    refine ⟨numberValue cs, ?_⟩
    split
    · exact absurd ⟨_, rfl⟩ hsign
    · exact if_pos (hsigned ▸ h)

/-- The characters that a pattern `<word> <number>` leaves for the number. -/
theorem matches_iff {word : List Char} {p : List Char → Bool} {line : String} (hw : ' ' ∉ word) :
    ((line.toList.dropPrefix? (word ++ [' '])).any p = true) ↔
      firstWord line = word ∧ ∃ cs, afterFirstWord line = ' ' :: cs ∧ p cs := by
  rw [Option.any_eq_true]
  constructor
  · rintro ⟨cs, hcs, hp⟩
    obtain ⟨pre, hline, hpre⟩ := List.dropPrefix?_eq_some_iff.mp hcs
    rw [eq_of_beq hpre, List.append_assoc] at hline
    obtain ⟨hfirst, hafter⟩ := firstWord_of_toList hline hw (.inl rfl)
    exact ⟨hfirst, cs, hafter, hp⟩
  · rintro ⟨hfirst, cs, hafter, hp⟩
    refine ⟨cs, List.dropPrefix?_eq_some_iff.mpr ⟨word ++ [' '], ?_, beq_self_eq_true _⟩, hp⟩
    rw [← firstWord_append_afterFirstWord line, hfirst, hafter, List.append_assoc]
    rfl

theorem matchesDeposit_iff : matchesDeposit line ↔ firstWord line = "deposit".toList ∧
    ∃ cs, afterFirstWord line = ' ' :: cs ∧ matchesSigned cs := by
  rw [← matches_iff (by decide +kernel)]
  unfold matchesDeposit matchesSigned
  rw [show "deposit".toList ++ [' '] = "deposit ".toList by decide +kernel]
  cases line.toList.dropPrefix? "deposit ".toList with
  | none => exact Iff.rfl
  | some cs => rw [Option.any_some]; split <;> simp_all

theorem matchesAddInterest_iff : matchesAddInterest line ↔
    firstWord line = "addInterest".toList ∧
      ∃ cs, afterFirstWord line = ' ' :: cs ∧ matchesNumber cs := by
  rw [← matches_iff (by decide +kernel)]
  unfold matchesAddInterest
  rw [show "addInterest".toList ++ [' '] = "addInterest ".toList by decide +kernel]
  cases line.toList.dropPrefix? "addInterest ".toList <;> rfl

namespace ReplicatedStateMachine

variable {m : ReplicatedStateMachine}

/-- A `deposit` line that its pattern lets through is queued, with the number after the
space as its amount. -/
theorem deposit_of_matches (h : matchesDeposit input) : ∃ amount,
    parseDouble (String.ofList (afterFirstWord input).tail) = .ok amount ∧
    m.deposit input = .ok ((m.queue ⟨m.nextUniqueId, "deposit", amount, 0, .deposit⟩).write
      (report [.text input])) := by
  obtain ⟨hword, cs, hrest, hcs⟩ := matchesDeposit_iff.mp h
  obtain ⟨amount, hamount⟩ := parseDouble_of_matchesSigned hcs
  have hne : firstWord input ≠ [] := by
    rw [hword]
    decide +kernel
  have hpieces : splitSpaces input = ["deposit", String.ofList cs] := by
    rw [splitSpaces_of_ne_nil hne, hrest,
      furtherPieces_of_notMem (of_matchesSigned hcs).1 (of_matchesSigned hcs).2, hword,
      String.ofList_toList]
  refine ⟨amount, by rw [hrest, List.tail_cons, hamount], ?_⟩
  rw [deposit, if_pos h, hpieces]
  simp only [argument, List.getElem?_cons_succ, List.getElem?_cons_zero, evaluate, Except.mapError,
    bind, Except.bind, hamount, pure, Except.pure]

/-- So is an `addInterest` line, with the number as its percent. -/
theorem addInterest_of_matches (h : matchesAddInterest input) : ∃ percent,
    parseDouble (String.ofList (afterFirstWord input).tail) = .ok percent ∧
    m.addInterest input = .ok ((m.queue ⟨m.nextUniqueId, input, 0, percent, .interest⟩).write
      (report [.text input])) := by
  obtain ⟨hword, cs, hrest, hcs⟩ := matchesAddInterest_iff.mp h
  obtain ⟨percent, hpercent⟩ :=
    parseDouble_of_matchesSigned (matchesSigned_of_matchesNumber hcs)
  have hne : firstWord input ≠ [] := by
    rw [hword]
    decide +kernel
  have hpieces : splitSpaces input = ["addInterest", String.ofList cs] := by
    rw [splitSpaces_of_ne_nil hne, hrest,
      furtherPieces_of_notMem (of_matchesNumber hcs).1 (of_matchesNumber hcs).2, hword,
      String.ofList_toList]
  refine ⟨percent, by rw [hrest, List.tail_cons, hpercent], ?_⟩
  rw [addInterest, if_pos h, hpieces]
  simp only [argument, List.getElem?_cons_succ, List.getElem?_cons_zero, evaluate, Except.mapError,
    bind, Except.bind, hpercent, pure, Except.pure]

theorem deposit_of_not_matches (h : ¬ matchesDeposit input) : m.deposit input = .ok m := if_neg h

theorem addInterest_of_not_matches (h : ¬ matchesAddInterest input) :
    m.addInterest input = .ok m := if_neg h

/-- The dispatch on the first word. -/
theorem parseInput_of_argument {word : String}
    (h : argument (splitSpaces input) 0 = .ok word) : m.parseInput input =
      match Command.ofWord word with
      | .getQuickBalance =>
          .ok (m.write (report [.text "Quick Balance: ", .number m.replica.getQuickBalance]))
      | .getSyncedBalance => .ok (m.getSyncedBalance input)
      | .deposit => m.deposit input
      | .addInterest => m.addInterest input
      | .getHistory => .ok (m.getHistory input)
      | .checkTxStatus => m.checkTxStatus input
      | .cleanHistory => .ok m.cleanHistory
      | .memberInfo => .ok m.memberInfo
      | .exit => .ok m.exit
      | .unrecognized =>
          .ok (m.write [⟨.console, [.text "[Feedback]: command not recognized, try again"]⟩]) := by
  rw [parseInput, h]
  rfl

theorem write_write (m : ReplicatedStateMachine) (lines lines' : List Output) :
    (m.write lines).write lines' = m.write (lines ++ lines') := by
  simp only [write, List.append_assoc]

/-- Two pieces after the command word are enough for `checkTxStatus`, and nothing less is. -/
theorem checkTxStatus_cases (m : ReplicatedStateMachine) (input : String) :
    (∃ lines, 3 ≤ (splitSpaces input).length ∧ m.checkTxStatus input = .ok (m.write lines)) ∨
    (∃ lines, (splitSpaces input).length < 3 ∧
      m.checkTxStatus input = .error ⟨.arrayIndexOutOfBounds, m.write lines⟩) := by
  rcases hargs : splitSpaces input with _ | ⟨a, _ | ⟨b, _ | ⟨c, args⟩⟩⟩
  all_goals simp only [checkTxStatus, hargs, argument, List.getElem?_cons_succ,
    List.getElem?_cons_zero, List.getElem?_nil, evaluate, Except.mapError, bind, Except.bind]
  · exact .inr ⟨_, by simp, rfl⟩
  · exact .inr ⟨_, by simp, rfl⟩
  · exact .inr ⟨_, by simp, rfl⟩
  · exact .inl ⟨_, by simp, congrArg Except.ok (m.write_write _ _)⟩

end ReplicatedStateMachine

/-! ## The case of letters -/

/-- Two lines that differ at most in the case of the ASCII letters in their first word. -/
def SameUpToCase (l₁ l₂ : String) : Prop :=
  (firstWord l₁).map Char.toLower = (firstWord l₂).map Char.toLower ∧
    afterFirstWord l₁ = afterFirstWord l₂

instance (l₁ l₂ : String) : Decidable (SameUpToCase l₁ l₂) :=
  inferInstanceAs (Decidable (_ ∧ _))

/-- The state in which a line leaves the replica, be it by an exception. -/
def ReplicatedStateMachine.afterLine (m : ReplicatedStateMachine) (input : String) :
    ReplicatedStateMachine :=
  match m.parseInput input with
  | .ok m' => m'
  | .error e => e.state

/-- What a transaction does, apart from the text of its command. -/
def Transaction.content (t : Transaction) : TransactionType × String × ℚ × ℚ :=
  (t.type, t.uniqueId, t.balance, t.percent)

/-- Two accounts in which the same transactions are outstanding and the rest is equal. -/
structure SameEffect (c₁ c₂ : Client) : Prop where
  outstandingCollection :
    c₁.outstandingCollection.map Transaction.content =
      c₂.outstandingCollection.map Transaction.content
  balance : c₁.balance = c₂.balance
  executedList : c₁.executedList = c₂.executedList
  outstandingCounter : c₁.outstandingCounter = c₂.outstandingCounter

instance (c₁ c₂ : Client) : Decidable (SameEffect c₁ c₂) :=
  decidable_of_iff (c₁.outstandingCollection.map Transaction.content =
      c₂.outstandingCollection.map Transaction.content ∧ c₁.balance = c₂.balance ∧
      c₁.executedList = c₂.executedList ∧ c₁.outstandingCounter = c₂.outstandingCounter)
    ⟨fun ⟨h₁, h₂, h₃, h₄⟩ ↦ ⟨h₁, h₂, h₃, h₄⟩, fun ⟨h₁, h₂, h₃, h₄⟩ ↦ ⟨h₁, h₂, h₃, h₄⟩⟩

theorem SameEffect.of_eq {c₁ c₂ : Client} (h : c₁ = c₂) : SameEffect c₁ c₂ := by
  subst h
  exact ⟨rfl, rfl, rfl, rfl⟩

/-- The Kelvin sign is not an ASCII letter. -/
theorem toLower_eq_kelvin_iff {c : Char} : c.toLower = '\u212A' ↔ c = '\u212A' := by
  constructor
  · intro h
    have hupper : ¬ c.isUpper := by
      intro hc
      have hlower := c.isLower_toLower_eq_isAlpha
      rw [h, Char.isAlpha, hc, Bool.true_or] at hlower
      exact absurd hlower (by decide)
    rwa [Char.toLower_eq_of_not_isUpper hupper] at h
  · rintro rfl
    decide

/-- `toLowerCase` does not see the case of ASCII letters. -/
theorem toLowerCase_congr {w₁ w₂ : List Char} (h : w₁.map Char.toLower = w₂.map Char.toLower) :
    toLowerCase (String.ofList w₁) = toLowerCase (String.ofList w₂) := by
  have hlower : ∀ w : List Char, toLowerCase (String.ofList w) =
      String.ofList ((w.map Char.toLower).map fun c ↦ if c = '\u212A' then 'k' else c) := by
    intro w
    simp only [toLowerCase, String.toList_ofList, List.map_map, Function.comp_def,
      toLower_eq_kelvin_iff]
  rw [hlower, hlower, h]

/-- What the pattern for `deposit` lets through is dispatched to `deposit`. -/
theorem matchesDeposit_of_ne {word : String} (h : argument (splitSpaces line) 0 = .ok word)
    (hc : Command.ofWord word ≠ .deposit) : matchesDeposit line = false := by
  by_contra hm
  have hword := (matchesDeposit_iff.mp (Bool.not_eq_false _ ▸ hm)).1
  rw [argument_zero (by rw [hword]; decide +kernel), hword, String.ofList_toList] at h
  obtain rfl := Except.ok.inj h
  exact hc (by decide +kernel)

theorem matchesAddInterest_of_ne {word : String} (h : argument (splitSpaces line) 0 = .ok word)
    (hc : Command.ofWord word ≠ .addInterest) : matchesAddInterest line = false := by
  by_contra hm
  have hword := (matchesAddInterest_iff.mp (Bool.not_eq_false _ ▸ hm)).1
  rw [argument_zero (by rw [hword]; decide +kernel), hword, String.ofList_toList] at h
  obtain rfl := Except.ok.inj h
  exact hc (by decide +kernel)

/-- A pattern that spells out a word sees the case of its letters. -/
theorem eq_of_firstWord_eq {l₁ l₂ : String} (h : SameUpToCase l₁ l₂)
    (hword : firstWord l₁ = firstWord l₂) : l₁ = l₂ := by
  rw [← String.toList_inj, ← firstWord_append_afterFirstWord, ← firstWord_append_afterFirstWord,
    hword, h.2]

namespace ReplicatedStateMachine

variable {m : ReplicatedStateMachine} {word : String}

/-- The commands that do not look at their line before they queue something or not. -/
theorem replica_afterLine_of_ne (h : argument (splitSpaces input) 0 = .ok word)
    (hs : Command.ofWord word ≠ .getSyncedBalance) (hd : Command.ofWord word ≠ .deposit)
    (hi : Command.ofWord word ≠ .addInterest) : (m.afterLine input).replica =
      if Command.ofWord word = .cleanHistory then m.replica.setExecutedTransactions []
      else m.replica := by
  rw [afterLine, parseInput_of_argument h]
  cases hc : Command.ofWord word with
  | getQuickBalance => rfl
  | getSyncedBalance => exact absurd hc hs
  | deposit => exact absurd hc hd
  | addInterest => exact absurd hc hi
  | getHistory => rfl
  | checkTxStatus =>
      rcases m.checkTxStatus_cases input with ⟨lines, -, h⟩ | ⟨lines, -, h⟩ <;> rw [h] <;> rfl
  | cleanHistory => rfl
  | memberInfo => rfl
  | exit => rfl
  | unrecognized => rfl

theorem afterLine_getSyncedBalance (h : argument (splitSpaces input) 0 = .ok word)
    (hc : Command.ofWord word = .getSyncedBalance) :
    m.afterLine input = m.getSyncedBalance input := by
  rw [afterLine, parseInput_of_argument h, hc]

theorem afterLine_deposit (h : argument (splitSpaces input) 0 = .ok word)
    (hc : Command.ofWord word = .deposit) : ∃ t, (m.afterLine input).replica =
      if matchesDeposit input then m.replica.addOutstandingCollection t else m.replica := by
  rw [afterLine, parseInput_of_argument h, hc]
  by_cases hm : matchesDeposit input
  · obtain ⟨amount, -, hd⟩ := deposit_of_matches (m := m) hm
    exact ⟨_, by dsimp only; rw [hd, if_pos hm]; rfl⟩
  · exact ⟨⟨"", "", 0, 0, .deposit⟩, by dsimp only; rw [deposit_of_not_matches hm, if_neg hm]⟩

theorem afterLine_addInterest (h : argument (splitSpaces input) 0 = .ok word)
    (hc : Command.ofWord word = .addInterest) : ∃ t, (m.afterLine input).replica =
      if matchesAddInterest input then m.replica.addOutstandingCollection t else m.replica := by
  rw [afterLine, parseInput_of_argument h, hc]
  by_cases hm : matchesAddInterest input
  · obtain ⟨percent, -, hd⟩ := addInterest_of_matches (m := m) hm
    exact ⟨_, by dsimp only; rw [hd, if_pos hm]; rfl⟩
  · exact ⟨⟨"", "", 0, 0, .interest⟩, by
      dsimp only
      rw [addInterest_of_not_matches hm, if_neg hm]⟩

end ReplicatedStateMachine

/-- A line that either queues a transaction or does nothing has the effect of another such
line if and only if the two are equally well-formed; and well-formed lines are equal. -/
theorem sameEffect_ite_iff {c c₁ c₂ : Client} {t₁ t₂ : Transaction} {b₁ b₂ : Bool}
    (h₁ : c₁ = if b₁ then c.addOutstandingCollection t₁ else c)
    (h₂ : c₂ = if b₂ then c.addOutstandingCollection t₂ else c)
    (h : b₁ → b₂ → c₁ = c₂) : SameEffect c₁ c₂ ↔ b₁ = b₂ := by
  constructor
  · intro he
    have hlen := congrArg List.length he.outstandingCollection
    rw [h₁, h₂] at hlen
    cases b₁ <;> cases b₂ <;> simp [Client.addOutstandingCollection] at hlen ⊢
  · rintro rfl
    refine .of_eq ?_
    cases b₁ with
    | true => exact h rfl rfl
    | false => rw [h₁, h₂]; rfl

/-- A queued synced balance keeps the spelling of its line as its command, and nothing else
of it. -/
theorem sameEffect_getSyncedBalance (m : ReplicatedStateMachine) (l₁ l₂ : String) :
    SameEffect (m.getSyncedBalance l₁).replica (m.getSyncedBalance l₂).replica := by
  unfold ReplicatedStateMachine.getSyncedBalance
  dsimp only [ReplicatedStateMachine.write]
  split
  · exact ⟨by simp [ReplicatedStateMachine.queue, Client.addOutstandingCollection,
      Transaction.content, ReplicatedStateMachine.nextUniqueId], rfl, rfl, rfl⟩
  · exact ⟨rfl, rfl, rfl, rfl⟩

/-- **Two spellings of a command.**  Lines that differ in the case of their first word only
have the same effect on a replica exactly if the pattern for `deposit` lets both or neither
through, and so does the pattern for `addInterest`. -/
theorem sameEffect_iff (m : ReplicatedStateMachine) {l₁ l₂ : String} (h : SameUpToCase l₁ l₂) :
    SameEffect (m.afterLine l₁).replica (m.afterLine l₂).replica ↔
      matchesDeposit l₁ = matchesDeposit l₂ ∧
        matchesAddInterest l₁ = matchesAddInterest l₂ := by
  by_cases hne : firstWord l₁ = []
  · have hword : firstWord l₂ = [] := by
      rw [← List.map_eq_nil_iff (f := Char.toLower), ← h.1, hne, List.map_nil]
    obtain rfl := eq_of_firstWord_eq h (hne.trans hword.symm)
    exact iff_of_true (.of_eq rfl) ⟨rfl, rfl⟩
  have hne₂ : firstWord l₂ ≠ [] := fun hnil ↦ hne (by
    rw [← List.map_eq_nil_iff (f := Char.toLower), h.1, hnil, List.map_nil])
  have hc : Command.ofWord (String.ofList (firstWord l₁)) =
      Command.ofWord (String.ofList (firstWord l₂)) := by
    simp only [Command.ofWord, toLowerCase_congr h.1]
  have hw₁ := argument_zero hne
  have hw₂ := argument_zero hne₂
  have hequal : ∀ {l : List Char}, firstWord l₁ = l → firstWord l₂ = l →
      (m.afterLine l₁).replica = (m.afterLine l₂).replica := fun h₁ h₂ ↦ by
    rw [eq_of_firstWord_eq h (h₁.trans h₂.symm)]
  by_cases hd : Command.ofWord (String.ofList (firstWord l₁)) = .deposit
  · obtain ⟨t₁, h₁⟩ := ReplicatedStateMachine.afterLine_deposit (m := m) hw₁ hd
    obtain ⟨t₂, h₂⟩ := ReplicatedStateMachine.afterLine_deposit (m := m) hw₂ (hc ▸ hd)
    rw [matchesAddInterest_of_ne hw₁ (by simp [hd]),
      matchesAddInterest_of_ne hw₂ (by simp [← hc, hd])]
    exact (sameEffect_ite_iff h₁ h₂ fun hm₁ hm₂ ↦
      hequal (matchesDeposit_iff.mp hm₁).1 (matchesDeposit_iff.mp hm₂).1).trans (by simp)
  by_cases hi : Command.ofWord (String.ofList (firstWord l₁)) = .addInterest
  · obtain ⟨t₁, h₁⟩ := ReplicatedStateMachine.afterLine_addInterest (m := m) hw₁ hi
    obtain ⟨t₂, h₂⟩ := ReplicatedStateMachine.afterLine_addInterest (m := m) hw₂ (hc ▸ hi)
    rw [matchesDeposit_of_ne hw₁ hd, matchesDeposit_of_ne hw₂ (hc ▸ hd)]
    exact (sameEffect_ite_iff h₁ h₂ fun hm₁ hm₂ ↦
      hequal (matchesAddInterest_iff.mp hm₁).1 (matchesAddInterest_iff.mp hm₂).1).trans (by simp)
  rw [matchesDeposit_of_ne hw₁ hd, matchesDeposit_of_ne hw₂ (hc ▸ hd),
    matchesAddInterest_of_ne hw₁ hi, matchesAddInterest_of_ne hw₂ (hc ▸ hi)]
  refine iff_of_true ?_ ⟨rfl, rfl⟩
  by_cases hs : Command.ofWord (String.ofList (firstWord l₁)) = .getSyncedBalance
  · rw [ReplicatedStateMachine.afterLine_getSyncedBalance hw₁ hs,
      ReplicatedStateMachine.afterLine_getSyncedBalance hw₂ (hc ▸ hs)]
    exact sameEffect_getSyncedBalance m l₁ l₂
  · refine .of_eq ?_
    rw [ReplicatedStateMachine.replica_afterLine_of_ne hw₁ hs hd hi,
      ReplicatedStateMachine.replica_afterLine_of_ne hw₂ (hc ▸ hs) (hc ▸ hd) (hc ▸ hi), hc]

/-- Only `deposit` and `addInterest` itself are spelled out in the patterns; with another
command word there is no pattern to differ on. -/
theorem sameEffect_iff_getSyncedBalance : SameEffect
    ((ReplicatedStateMachine.new "Rep1" "#Rep1-17" 2).afterLine "GetSyncedBalance").replica
    ((ReplicatedStateMachine.new "Rep1" "#Rep1-17" 2).afterLine "getSyncedBalance").replica :=
  (sameEffect_iff _ (by decide +kernel)).mpr (by decide +kernel)

/-- `Deposit 5` is recognised as a deposit and then ignored. -/
theorem not_sameEffect_deposit : SameUpToCase "Deposit 5" "deposit 5" ∧ ¬ SameEffect
    ((ReplicatedStateMachine.new "Rep1" "#Rep1-17" 2).afterLine "Deposit 5").replica
    ((ReplicatedStateMachine.new "Rep1" "#Rep1-17" 2).afterLine "deposit 5").replica := by
  decide +kernel

end ReplicatedBank
