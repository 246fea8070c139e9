import ReplicatedBank.Listener

/-!
# Commands

`parseInput` of `ReplicatedStateMachine.java`, with the pieces of the Java library it
uses on its input, and the tick of the broadcasting executor.

A command line changes the account in one of three ways only: not at all, by queuing
one transaction under the next identifier, or by clearing `executedList`
(`command_cases`).  Everything proved about runs goes through that statement, so the
parsing itself is unfolded once.
-/

namespace ReplicatedBank

/-- The exceptions a command line can raise. -/
inductive JavaException where
  | arrayIndexOutOfBounds
  | numberFormat
deriving DecidableEq, Repr

/-- An exception that ends a command, with the state it leaves behind. -/
structure Thrown where
  exception : JavaException
  state : ReplicatedStateMachine

/-! ## Strings -/

/-- `String.split(" ")`: the pieces between single spaces without the empty ones at the
end; a string without a space is its own only piece. -/
def splitSpaces (s : String) : List String :=
  let parts := s.toList.splitOn ' '
  if parts.length = 1 then [s] else (parts.rdropWhile List.isEmpty).map String.ofList

/-- `args[i]`. -/
def argument (args : List String) (i : ℕ) : Except JavaException String :=
  match args[i]? with
  | some arg => .ok arg
  | none => .error .arrayIndexOutOfBounds

/-- `String.toLowerCase()` as far as it matters for a comparison with ASCII words: beside
the ASCII capitals only the Kelvin sign has an ASCII letter as its lower case. -/
def toLowerCase (s : String) : String :=
  String.ofList (s.toList.map fun c ↦ if c = '\u212A' then 'k' else c.toLower)

/-- `\d+(\.\d+)?`. -/
def matchesNumber (cs : List Char) : Bool :=
  let (whole, rest) := cs.span Char.isDigit
  !whole.isEmpty && match rest with
    | [] => true
    | '.' :: fraction => !fraction.isEmpty && fraction.all Char.isDigit
    | _ => false

/-- `input.matches("deposit -?\\d+(\\.\\d+)?")`. -/
def matchesDeposit (input : String) : Bool :=
  match input.toList.dropPrefix? "deposit ".toList with
  | some ('-' :: cs) => matchesNumber cs
  | some cs => matchesNumber cs
  | none => false

/-- `input.matches("addInterest \\d+(\\.\\d+)?")`. -/
def matchesAddInterest (input : String) : Bool :=
  match input.toList.dropPrefix? "addInterest ".toList with
  | some cs => matchesNumber cs
  | none => false

/-- The number written with decimal digits. -/
def digitsValue (cs : List Char) : ℕ := cs.foldl (fun n c ↦ 10 * n + (c.toNat - '0'.toNat)) 0

/-- The value of a string of the form `\d+(\.\d+)?`. -/
def numberValue (cs : List Char) : ℚ :=
  let (whole, rest) := cs.span Char.isDigit
  digitsValue whole + digitsValue rest.tail / 10 ^ rest.tail.length

/-- `Double.parseDouble` on the strings the two patterns let through. -/
def parseDouble (s : String) : Except JavaException ℚ :=
  match s.toList with
  | '-' :: cs => if matchesNumber cs then .ok (-numberValue cs) else .error .numberFormat
  | cs => if matchesNumber cs then .ok (numberValue cs) else .error .numberFormat

/-! ## The commands -/

/-- The cases of the `switch` in `parseInput`. -/
inductive Command where
  | getQuickBalance
  | getSyncedBalance
  | deposit
  | addInterest
  | getHistory
  | checkTxStatus
  | cleanHistory
  | memberInfo
  | exit
  | unrecognized
deriving DecidableEq, Repr

/-- The case a command word is dispatched to. -/
def Command.ofWord (word : String) : Command :=
  match toLowerCase word with
  | "getquickbalance" => .getQuickBalance
  | "getsyncedbalance" => .getSyncedBalance
  | "deposit" => .deposit
  | "addinterest" => .addInterest
  | "gethistory" => .getHistory
  | "checktxstatus" => .checkTxStatus
  | "cleanhistory" => .cleanHistory
  | "memberinfo" => .memberInfo
  | "exit" => .exit
  | _ => .unrecognized

namespace ReplicatedStateMachine

/-- `ReplicatedStateMachine.print`. -/
def print (line : List Piece) : Output := ⟨.console, .text "[ReplicatedStateMachine]: " :: line⟩

/-- `ReplicatedStateMachine.writeOutput`. -/
def writeOutput (line : List Piece) : Output := ⟨.outputFile, line⟩

/-- A line that is both printed and written to the output file. -/
def report (line : List Piece) : List Output := [print line, writeOutput line]

variable (m : ReplicatedStateMachine)

/-- An expression evaluated in a state: an exception leaves that state behind. -/
def evaluate {α : Type} (x : Except JavaException α) : Except Thrown α :=
  x.mapError (Thrown.mk · m)

/-- `replica.addOutstandingCollection(transaction)`. -/
def queue (t : Transaction) : ReplicatedStateMachine :=
  { m with replica := m.replica.addOutstandingCollection t }

/-- A synced balance is queued when nothing is outstanding, and answered at once otherwise. -/
def getSyncedBalance (input : String) : ReplicatedStateMachine :=
  let m := m.write [print [.text input]]
  if m.replica.outstandingCollection.isEmpty then
    m.queue { command := input, uniqueId := m.nextUniqueId, type := .syncedBalance }
  else
    m.write (report [.text "Synced Balance Correct: ", .number m.replica.getQuickBalance])

def deposit (input : String) : Except Thrown ReplicatedStateMachine :=
  if matchesDeposit input then do
    let args := splitSpaces input
    let amount ← m.evaluate (argument args 1 >>= parseDouble)
    let command ← m.evaluate (argument args 0)
    return (m.queue { command := command, uniqueId := m.nextUniqueId, balance := amount,
                      type := .deposit }).write (report [.text input])
  else return m

def addInterest (input : String) : Except Thrown ReplicatedStateMachine :=
  if matchesAddInterest input then do
    let args := splitSpaces input
    let percent ← m.evaluate (argument args 1 >>= parseDouble)
    return (m.queue { command := input, uniqueId := m.nextUniqueId, percent := percent,
                      type := .interest }).write (report [.text input])
  else return m

/-- The lines `getHistory` reports for one of the two lists. -/
def historyLines (title : String) (transactions : List Transaction) : List Output :=
  if transactions.isEmpty then []
  else report [.text title] ++
    transactions.flatMap fun t ↦ report [.text (t.uniqueId ++ ":" ++ t.command)]

def getHistory (input : String) : ReplicatedStateMachine :=
  m.write (print [.text input] :: historyLines "Executed List:" m.replica.executedList ++
    historyLines "Outstanding collection:" m.replica.outstandingCollection)

def checkTxStatus (input : String) : Except Thrown ReplicatedStateMachine := do
  let m := m.write [print [.text input]]
  let args := splitSpaces input
  let name ← m.evaluate (argument args 1)
  let counter ← m.evaluate (argument args 2)
  let transactionId := name ++ " " ++ counter
  let answer :=
    match m.replica.executedList.find? (·.uniqueId = transactionId) with
    | some executed => executed.command ++ " is executed"
    | none => input ++ " has not been executed yet"
  return m.write (report [.text answer])

def cleanHistory : ReplicatedStateMachine :=
  { m with replica := m.replica.setExecutedTransactions [] }.write
    (report [.text "Executing clean history"])

/-- The chain of replacements that `memberInfo` applies to a private group's name. -/
def memberName (member : String) : String :=
  (((member.replace "#" "").replace "spreadserver" "").replace "-" " ").replace "  " "-"

def memberInfo : ReplicatedStateMachine :=
  m.write (⟨.console, .text "[ReplicatedStateMachine]: Member info: " ::
      m.replicas.map fun member ↦ .text (memberName member ++ " ")⟩ ::
    writeOutput [.text "Member info: "] ::
    m.replicas.map fun member ↦ writeOutput [.text (memberName member)])

/-- The main thread enters `exit` and reads no further commands. -/
def exit : ReplicatedStateMachine :=
  { m with main := .exiting }.write [writeOutput [.text "Exit"]]

def parseInput (input : String) : Except Thrown ReplicatedStateMachine := do
  match Command.ofWord (← m.evaluate (argument (splitSpaces input) 0)) with
  | .getQuickBalance =>
      return m.write (report [.text "Quick Balance: ", .number m.replica.getQuickBalance])
  | .getSyncedBalance => return m.getSyncedBalance input
  | .deposit => m.deposit input
  | .addInterest => m.addInterest input
  | .getHistory => return m.getHistory input
  | .checkTxStatus => m.checkTxStatus input
  | .cleanHistory => return m.cleanHistory
  | .memberInfo => return m.memberInfo
  | .exit => return m.exit
  | .unrecognized =>
      return m.write [⟨.console, [.text "[Feedback]: command not recognized, try again"]⟩]

/-- The main thread reads a line, if it still reads lines; an exception ends it. -/
def command (input : String) : ReplicatedStateMachine :=
  if m.main = .reading then
    match m.parseInput input with
    | .ok m' => m'
    | .error e => { e.state with main := .stopped }
  else m

/-- A run of the broadcasting executor.  The batch is multicast in order; `sent` of it
get out before a `SpreadException`, whose text comes from the transport. -/
def broadcast (sent : ℕ) : ReplicatedStateMachine × List Transaction :=
  let batch := m.replica.outstandingCollection
  if batch.isEmpty then (m, [])
  else
    (m.write (print [.text ("Client " ++ m.replicaName ++ " has " ++ toString batch.length ++
        " outstanding transactions")] ::
      if sent < batch.length then [⟨.console, [.text "[Error]: "]⟩] else []),
     batch.take sent)

end ReplicatedStateMachine

/-- Whether a command line is a `cleanHistory` command. -/
def isCleanHistory (input : String) : Bool :=
  (splitSpaces input)[0]?.any (Command.ofWord · = .cleanHistory)

/-! ## What a command does -/

namespace ReplicatedStateMachine

variable {m m' : ReplicatedStateMachine} {input : String} {t : Transaction}

/-- A transaction that a command may queue: it carries the next identifier, and a synced
balance is queued only when nothing else is outstanding. -/
structure Accepts (m : ReplicatedStateMachine) (t : Transaction) : Prop where
  uniqueId_eq : t.uniqueId = m.nextUniqueId
  type_eq : t.isMonetary ∨ t.type = .syncedBalance ∧ m.replica.outstandingCollection = []

/-- Replicas do not queue balances for others. -/
theorem Accepts.ne_updateBalance {m : ReplicatedStateMachine} {t : Transaction}
    (h : Accepts m t) : t.type ≠ .updateBalance := by
  rcases h.type_eq with hm | ⟨hty, -⟩
  · exact Transaction.ne_updateBalance hm
  · simp [hty]

/-- The fields that commands leave alone. -/
structure SameSetting (m m' : ReplicatedStateMachine) : Prop where
  replicaName : m'.replicaName = m.replicaName
  privateGroup : m'.privateGroup = m.privateGroup
  numberOfReplicas : m'.numberOfReplicas = m.numberOfReplicas
  replicas : m'.replicas = m.replicas
  alreadyInitializedBalance : m'.alreadyInitializedBalance = m.alreadyInitializedBalance

/-- A command led from `m` to `m'`. -/
structure Commanded (m : ReplicatedStateMachine) (input : String)
    (m' : ReplicatedStateMachine) : Prop extends SameSetting m m' where
  replica_cases : m'.replica = m.replica ∨
    (∃ t, m.Accepts t ∧ m'.replica = m.replica.addOutstandingCollection t) ∨
    (isCleanHistory input ∧ m'.replica = m.replica.setExecutedTransactions [])

/-- Both ways in which a branch of `parseInput` can end lead to such a state. -/
def Yields (m : ReplicatedStateMachine) (input : String) :
    Except Thrown ReplicatedStateMachine → Prop
  | .ok m' => Commanded m input m'
  | .error e => Commanded m input e.state

theorem SameSetting.refl (m : ReplicatedStateMachine) : SameSetting m m := ⟨rfl, rfl, rfl, rfl, rfl⟩

theorem Commanded.write {lines : List Output} (h : Commanded m input m') :
    Commanded m input (m'.write lines) := { h with }

theorem Commanded.refl (m : ReplicatedStateMachine) (input : String) : Commanded m input m where
  toSameSetting := .refl m
  replica_cases := .inl rfl

theorem Commanded.queue (h : m.Accepts t) : Commanded m input (m.queue t) where
  toSameSetting := ⟨rfl, rfl, rfl, rfl, rfl⟩
  replica_cases := .inr (.inl ⟨t, h, rfl⟩)

theorem yields_bind_evaluate {α : Type} {x : Except JavaException α}
    {f : α → Except Thrown ReplicatedStateMachine} (hm : Commanded m input m')
    (hf : ∀ a, x = .ok a → Yields m input (f a)) : Yields m input (m'.evaluate x >>= f) := by
  cases x with
  | error e => exact hm
  | ok a => exact hf a rfl

theorem yields_deposit (m : ReplicatedStateMachine) (input : String) :
    Yields m input (m.deposit input) := by
  unfold deposit
  split
  · refine yields_bind_evaluate (.refl m input) fun amount _ ↦ ?_
    refine yields_bind_evaluate (.refl m input) fun command _ ↦ ?_
    exact .write (.queue ⟨rfl, .inl rfl⟩)
  · exact .refl m input

theorem yields_addInterest (m : ReplicatedStateMachine) (input : String) :
    Yields m input (m.addInterest input) := by
  unfold addInterest
  split
  · refine yields_bind_evaluate (.refl m input) fun percent _ ↦ ?_
    exact .write (.queue ⟨rfl, .inl rfl⟩)
  · exact .refl m input

theorem yields_checkTxStatus (m : ReplicatedStateMachine) (input : String) :
    Yields m input (m.checkTxStatus input) := by
  have hw : Commanded m input (m.write [print [.text input]]) := .write (.refl m input)
  refine yields_bind_evaluate hw fun name _ ↦ ?_
  refine yields_bind_evaluate hw fun counter _ ↦ ?_
  exact hw.write

theorem commanded_getSyncedBalance (m : ReplicatedStateMachine) (input : String) :
    Commanded m input (m.getSyncedBalance input) := by
  unfold getSyncedBalance
  dsimp only
  split
  · rename_i h
    exact (Commanded.queue (m := m) ⟨rfl, .inr ⟨rfl, List.isEmpty_iff.mp h⟩⟩).write
  · exact .write (.write (.refl m input))

theorem yields_parseInput (m : ReplicatedStateMachine) (input : String) :
    Yields m input (m.parseInput input) := by
  refine yields_bind_evaluate (.refl m input) fun word hword ↦ ?_
  have hclean : Command.ofWord word = .cleanHistory → isCleanHistory input := by
    intro h
    rw [isCleanHistory]
    cases hw : (splitSpaces input)[0]? with
    | none => simp [argument, hw] at hword
    | some word' =>
        obtain rfl : word' = word := by simpa [argument, hw] using hword
        simpa using h
  cases hc : Command.ofWord word with
  | getQuickBalance => exact .write (.refl m input)
  | getSyncedBalance => exact commanded_getSyncedBalance m input
  | deposit => exact yields_deposit m input
  | addInterest => exact yields_addInterest m input
  | getHistory => exact .write (.refl m input)
  | checkTxStatus => exact yields_checkTxStatus m input
  | cleanHistory =>
      exact { SameSetting.refl m with replica_cases := .inr (.inr ⟨hclean hc, rfl⟩) }
  | memberInfo => exact .write (.refl m input)
  | exit => exact { SameSetting.refl m with replica_cases := .inl rfl }
  | unrecognized => exact .write (.refl m input)

/-- **What a command can do**, whatever the line: leave the account alone, queue one
transaction under the next identifier, or clear `executedList`. -/
theorem commanded (m : ReplicatedStateMachine) (input : String) :
    Commanded m input (m.command input) := by
  have hy := yields_parseInput m input
  unfold command
  split
  · cases h : m.parseInput input with
    | ok m' => rw [h] at hy; exact hy
    | error e => rw [h] at hy; exact { hy with }
  · exact .refl m input

/-- The transactions a command queues: one or none. -/
def queued (m : ReplicatedStateMachine) (input : String) : List Transaction :=
  (m.command input).replica.outstandingCollection.drop m.replica.outstandingCollection.length

/-- The three effects of a command, with what it queues. -/
theorem command_cases (m : ReplicatedStateMachine) (input : String) :
    (m.queued input = [] ∧ (m.command input).replica = m.replica) ∨
    (∃ t, m.Accepts t ∧ m.queued input = [t] ∧
      (m.command input).replica = m.replica.addOutstandingCollection t) ∨
    (isCleanHistory input ∧ m.queued input = [] ∧
      (m.command input).replica = m.replica.setExecutedTransactions []) := by
  rcases (commanded m input).replica_cases with h | ⟨t, ht, h⟩ | ⟨hc, h⟩
  · exact .inl ⟨by simp [queued, h], h⟩
  · exact .inr (.inl ⟨t, ht, by simp [queued, h, Client.addOutstandingCollection], h⟩)
  · exact .inr (.inr ⟨hc, by simp [queued, h, Client.setExecutedTransactions], h⟩)

/-- A `getSyncedBalance` line. -/
theorem command_getSyncedBalance {word : String} (hmain : m.main = .reading)
    (hword : argument (splitSpaces input) 0 = .ok word)
    (hc : Command.ofWord word = .getSyncedBalance) :
    m.command input = m.getSyncedBalance input := by
  rw [command, if_pos hmain, parseInput, hword]
  simp only [evaluate, Except.mapError, bind, Except.bind, hc, pure, Except.pure]

/-- A well-formed `deposit` line is queued. -/
theorem command_deposit {word : String} {amount : ℚ} (hmain : m.main = .reading)
    (hword : argument (splitSpaces input) 0 = .ok word) (hc : Command.ofWord word = .deposit)
    (hm : matchesDeposit input)
    (hamount : (argument (splitSpaces input) 1 >>= parseDouble) = .ok amount) :
    m.command input =
      (m.queue ⟨m.nextUniqueId, word, amount, 0, .deposit⟩).write (report [.text input]) := by
  have hdeposit : m.deposit input =
      .ok ((m.queue ⟨m.nextUniqueId, word, amount, 0, .deposit⟩).write (report [.text input])) := by
    rw [deposit, if_pos hm]
    simp only [hamount, hword]
    rfl
  rw [command, if_pos hmain, parseInput, hword]
  simp only [evaluate, Except.mapError, bind, Except.bind, hc, hdeposit]

/-- The executor's tick writes a line and multicasts a prefix of the outstanding
collection. -/
theorem broadcast_eq (m : ReplicatedStateMachine) (sent : ℕ) :
    ∃ lines, m.broadcast sent = (m.write lines, m.replica.outstandingCollection.take sent) := by
  unfold broadcast
  dsimp only
  split
  · rename_i h
    exact ⟨[], by simp [write, List.isEmpty_iff.mp h]⟩
  · exact ⟨_, rfl⟩

end ReplicatedStateMachine

end ReplicatedBank
