import ReplicatedBank.Transaction

/-!
# The account of one replica

`client/Client.java`: the balance, the executed transactions, which double as the
duplicate filter, and the transactions that were accepted here and have not come
back yet.  `deposit` and `addInterest` are one operation with two effects;
`getSyncedBalance` goes through the same filter but records nothing.

What the program prints or writes to a file is collected as `Output`s, with the
numbers in a line kept apart from its text.
-/

namespace ReplicatedBank

/-! ## Output -/

/-- Where a line goes. -/
inductive Channel where
  /-- `System.out`. -/
  | console
  /-- `utils/output_<replicaName>.txt`, written by `ReplicatedStateMachine.writeOutput`. -/
  | outputFile
  /-- `utils/broadcast_output_<replicaName>.txt`, written by `AdvancedListener.writeOutput`. -/
  | broadcastFile
deriving DecidableEq, Repr

/-- A piece of a line: text, or a `double` converted to text. -/
inductive Piece where
  | text (s : String)
  | number (x : ℚ)
deriving DecidableEq

/-- A line written to one of the channels. -/
structure Output where
  channel : Channel
  line : List Piece
deriving DecidableEq

/-! ## Operations -/

/-- `Client`. -/
structure Client where
  balance : ℚ
  executedList : List Transaction
  outstandingCollection : List Transaction
  orderCounter : AtomicInteger
  outstandingCounter : AtomicInteger
deriving DecidableEq

namespace Client

/-- `Client.print`. -/
def print (line : List Piece) : Output := ⟨.console, .text "[Client]: " :: line⟩

def addOutstandingCollection (c : Client) (transaction : Transaction) : Client :=
  { c with
    outstandingCollection := c.outstandingCollection ++ [transaction]
    outstandingCounter := c.outstandingCounter.incrementAndGet }

/-- The test all three operations start with. -/
def alreadyExecuted (c : Client) (transaction : Transaction) : Bool :=
  c.executedList.any (·.uniqueId = transaction.uniqueId)

/-- The first entry with the transaction's id leaves the outstanding collection. -/
def removeOutstanding (c : Client) (transaction : Transaction) : Client :=
  { c with
    outstandingCollection :=
      c.outstandingCollection.eraseP (·.uniqueId = transaction.uniqueId) }

def getSyncedBalance (c : Client) (transaction : Transaction) : Client × List Output :=
  if c.alreadyExecuted transaction then (c, [])
  else (c.removeOutstanding transaction, [print [.text "Synced Balance: ", .number c.balance]])

/-- The common body of `deposit` and `addInterest`. -/
def execute (c : Client) (transaction : Transaction) (effect : ℚ → ℚ) : Client :=
  if c.alreadyExecuted transaction then c
  else
    { c.removeOutstanding transaction with
      balance := effect c.balance
      executedList := c.executedList ++ [transaction]
      orderCounter := c.orderCounter.incrementAndGet }

def deposit (c : Client) (transaction : Transaction) (amount : ℚ) : Client :=
  c.execute transaction (· + amount)

def addInterest (c : Client) (transaction : Transaction) (percent : ℚ) : Client :=
  c.execute transaction (· * (1 + percent / 100))

def getQuickBalance (c : Client) : ℚ := c.balance

def setBalance (c : Client) (balance : ℚ) : Client := { c with balance := balance }

def setExecutedTransactions (c : Client) (executedList : List Transaction) : Client :=
  { c with executedList := executedList }

/-! ## What the operations do -/

variable {c : Client} {t : Transaction} {effect : ℚ → ℚ}

theorem alreadyExecuted_iff :
    c.alreadyExecuted t ↔ t.uniqueId ∈ c.executedList.map Transaction.uniqueId := by
  simp only [alreadyExecuted, List.any_eq_true, decide_eq_true_eq, List.mem_map]

theorem execute_of_alreadyExecuted (h : c.alreadyExecuted t) : c.execute t effect = c :=
  if_pos h

theorem execute_of_not_alreadyExecuted (h : ¬ c.alreadyExecuted t) :
    c.execute t effect =
      { c.removeOutstanding t with
        balance := effect c.balance
        executedList := c.executedList ++ [t]
        orderCounter := c.orderCounter.incrementAndGet } := if_neg h

end Client

end ReplicatedBank
