import ReplicatedBank.Client

/-!
# A replica and its listener

The static fields of `ReplicatedStateMachine.java` that the message handlers read
and write, together with the listener's own flag, and the two handlers of
`listener/AdvancedListener.java`.  A handler returns the new state and the
transactions it multicasts, in order.
-/

namespace ReplicatedBank

/-- What the main thread is doing after the start-up barrier. -/
inductive MainThread where
  /-- Reading commands in `readInput`. -/
  | reading
  /-- In the loop of `exit`, waiting for the outstanding collection to empty. -/
  | exiting
  /-- Finished, or ended by an exception. -/
  | stopped
deriving DecidableEq, Repr

/-- The state of a replica process. -/
structure ReplicatedStateMachine where
  replicaName : String
  /-- `connection.getPrivateGroup()`: the name of this process within the group. -/
  privateGroup : String
  numberOfReplicas : ℤ
  replicas : List String
  replica : Client
  /-- The flag of the process's `AdvancedListener`. -/
  alreadyInitializedBalance : Bool
  main : MainThread
  /-- Everything printed and written so far. -/
  written : List Output
deriving DecidableEq

/-- The state set up by the constructor from `args[3]` and `args[2]`, once connected
under a private group. -/
def ReplicatedStateMachine.new (replicaName privateGroup : String) (numberOfReplicas : ℤ) :
    ReplicatedStateMachine where
  replicaName := replicaName
  privateGroup := privateGroup
  numberOfReplicas := numberOfReplicas
  replicas := []
  replica := ⟨0, [], [], 0, 0⟩
  alreadyInitializedBalance := false
  main := .reading
  written := []

/-- The expression labelling the next queued transaction. -/
def ReplicatedStateMachine.nextUniqueId (m : ReplicatedStateMachine) : String :=
  uniqueId m.replicaName m.replica.outstandingCounter

/-- Lines are printed or written. -/
def ReplicatedStateMachine.write (m : ReplicatedStateMachine) (lines : List Output) :
    ReplicatedStateMachine :=
  { m with written := m.written ++ lines }

/-- The part of a `MembershipInfo` that the program looks at. -/
structure MembershipInfo where
  isCausedByJoin : Bool
  isCausedByLeave : Bool
  isCausedByDisconnect : Bool
  members : List String
  /-- `getJoined()`, present when a join caused the change. -/
  joined : Option String
deriving DecidableEq

namespace AdvancedListener

/-- `AdvancedListener.print`. -/
def print (line : List Piece) : Output := ⟨.console, .text "[AdvancedListener]: " :: line⟩

/-- `AdvancedListener.writeOutput`. -/
def writeOutput (line : List Piece) : Output := ⟨.broadcastFile, line⟩

/-- The branch for `DEPOSIT`. -/
def receiveDeposit (m : ReplicatedStateMachine) (t : Transaction) : ReplicatedStateMachine :=
  { m with replica := m.replica.deposit t t.balance }.write
    [print [.text "got notified to deposit ", .number t.balance,
      .text (" , transaction id: " ++ t.uniqueId)],
    writeOutput [.text (t.uniqueId ++ " " ++ t.command ++ " "), .number t.balance]]

/-- The branch for `INTEREST`. -/
def receiveInterest (m : ReplicatedStateMachine) (t : Transaction) : ReplicatedStateMachine :=
  { m with replica := m.replica.addInterest t t.percent }.write
    [print [.text "got notified to add ", .number t.percent,
      .text (" % interest, transaction id: " ++ t.uniqueId)],
    writeOutput [.text (t.uniqueId ++ " " ++ t.command ++ " "), .number t.percent]]

/-- The branch for `SYNCED_BALANCE`. -/
def receiveSyncedBalance (m : ReplicatedStateMachine) (t : Transaction) :
    ReplicatedStateMachine :=
  let (replica, printed) := m.replica.getSyncedBalance t
  { m with replica := replica }.write (printed ++
    [print [.text ("got notified to get synced balance, transaction id: " ++ t.uniqueId)],
    writeOutput [.text (t.uniqueId ++ " " ++ t.command)]])

/-- The branch for `UPDATE_BALANCE`: only the first one ever counts. -/
def receiveUpdateBalance (m : ReplicatedStateMachine) (t : Transaction) :
    ReplicatedStateMachine :=
  if m.alreadyInitializedBalance then m
  else
    -- the line says "previous" but reads the balance after the assignment
    let replica := m.replica.setBalance t.balance
    { m with replica := replica, alreadyInitializedBalance := true }.write
      [print [.text "got notified to update balance to ", .number t.balance,
        .text (", transaction id: " ++ t.uniqueId ++ ", previous balance: "),
        .number replica.getQuickBalance],
      writeOutput [.text (t.uniqueId ++ " " ++ t.command ++ " "), .number t.balance]]

/-- The `default` branch; `output` is still empty when it is written. -/
def receiveOther (m : ReplicatedStateMachine) (t : Transaction) : ReplicatedStateMachine :=
  m.write [print [.text ("Regular message received: " ++ t.command)], writeOutput [.text ""]]

def regularMessageReceived (m : ReplicatedStateMachine) (t : Transaction) :
    ReplicatedStateMachine :=
  if m.replica.executedList.any (·.uniqueId = t.uniqueId) then m
  else
    match t.type with
    | .deposit => receiveDeposit m t
    | .interest => receiveInterest m t
    | .syncedBalance => receiveSyncedBalance m t
    | .updateBalance => receiveUpdateBalance m t
    | .none => receiveOther m t

/-- The `UPDATE_BALANCE` a member multicasts when another process joins.  It is
labelled with the counter's current value, which is not incremented. -/
def updateBalance (m : ReplicatedStateMachine) : Transaction where
  uniqueId := m.nextUniqueId
  command := "updateBalance " ++ m.replicaName
  type := .updateBalance
  balance := m.replica.getQuickBalance

/-- `ReplicatedStateMachine.sendMessage` announces what it sends. -/
def sendMessageLine (t : Transaction) : Output :=
  ⟨.console, [.text ("[ReplicatedStateMachine]: Sending message, transaction id: " ++ t.uniqueId)]⟩

/-- What a member does for a process that has joined: it sends its balance, and, if
the group has outgrown `numberOfReplicas`, its whole `executedList` after it. -/
def welcome (m : ReplicatedStateMachine) : ReplicatedStateMachine × List Transaction :=
  let sent := updateBalance m
  let m := m.write [sendMessageLine sent]
  if m.numberOfReplicas < m.replicas.length then
    ({ m with numberOfReplicas := m.replicas.length }, sent :: m.replica.executedList)
  else (m, [sent])

def membershipMessageReceived (m : ReplicatedStateMachine) (info : MembershipInfo) :
    ReplicatedStateMachine × List Transaction :=
  let m := m.write [print [.text "Membership message received"]]
  if info.isCausedByJoin then
    let m := { m with replicas := info.members }
    if some m.privateGroup ≠ info.joined then welcome m else (m, [])
  else if info.isCausedByLeave || info.isCausedByDisconnect then
    ({ m with replicas := info.members }, [])
  else (m, [])

/-! ## What a membership message does -/

/-- A member that welcomes another process expects at least as many replicas as there are
members; nothing else changes. -/
theorem welcome_state (m : ReplicatedStateMachine) : (welcome m).1 =
    { m.write [sendMessageLine (updateBalance m)] with
      numberOfReplicas := max m.numberOfReplicas m.replicas.length } := by
  unfold welcome
  dsimp only [ReplicatedStateMachine.write]
  split
  · rename_i hlt
    rw [max_eq_right (le_of_lt hlt)]
  · rename_i hge
    rw [max_eq_left (not_lt.mp hge)]

theorem welcome_sent (m : ReplicatedStateMachine) : (welcome m).2 = updateBalance m ::
    if m.numberOfReplicas < m.replicas.length then m.replica.executedList else [] := by
  unfold welcome
  dsimp only [ReplicatedStateMachine.write]
  split <;> rfl

variable (m : ReplicatedStateMachine) (info : MembershipInfo)

/-- Another process has joined and is welcomed, or nothing is sent. -/
theorem membershipMessageReceived_cases :
    (info.isCausedByJoin ∧ info.joined ≠ some m.privateGroup) ∧
      membershipMessageReceived m info =
        welcome { m.write [print [.text "Membership message received"]] with
          replicas := info.members } ∨
    ¬ (info.isCausedByJoin ∧ info.joined ≠ some m.privateGroup) ∧ ∃ replicas,
      membershipMessageReceived m info =
        ({ m.write [print [.text "Membership message received"]] with
          replicas := replicas }, []) := by
  unfold membershipMessageReceived
  by_cases hjoin : info.isCausedByJoin
  · by_cases hself : info.joined = some m.privateGroup
    · refine .inr ⟨fun h ↦ h.2 hself, info.members, ?_⟩
      rw [if_pos hjoin, hself]
      exact if_neg (not_not.mpr rfl)
    · refine .inl ⟨⟨hjoin, hself⟩, ?_⟩
      rw [if_pos hjoin]
      exact if_pos (Ne.symm hself)
  · rw [if_neg hjoin]
    refine .inr ⟨fun h ↦ hjoin h.1, ?_⟩
    split
    · exact ⟨info.members, rfl⟩
    · exact ⟨m.replicas, rfl⟩

/-- **What a member sends**: nothing, unless another process has joined; then its balance,
and its executed transactions too if the group has outgrown `numberOfReplicas`. -/
theorem membershipMessageReceived_sent : (membershipMessageReceived m info).2 =
    if info.isCausedByJoin ∧ info.joined ≠ some m.privateGroup then
      updateBalance m ::
        if m.numberOfReplicas < info.members.length then m.replica.executedList else []
    else [] := by
  rcases membershipMessageReceived_cases m info with ⟨hother, h⟩ | ⟨hother, replicas, h⟩ <;> rw [h]
  · rw [if_pos hother, welcome_sent]
    rfl
  · rw [if_neg hother]

/-- A membership message touches `numberOfReplicas`, `replicas` and the output only. -/
theorem membershipMessageReceived_state : ∃ numberOfReplicas replicas written,
    (membershipMessageReceived m info).1 =
      { m with
        numberOfReplicas := numberOfReplicas
        replicas := replicas
        written := written } := by
  rcases membershipMessageReceived_cases m info with ⟨-, h⟩ | ⟨-, replicas, h⟩ <;> rw [h]
  · rw [welcome_state]
    exact ⟨_, _, _, rfl⟩
  · exact ⟨_, _, _, rfl⟩

theorem membershipMessageReceived_privateGroup :
    (membershipMessageReceived m info).1.privateGroup = m.privateGroup := by
  obtain ⟨_, _, _, h⟩ := membershipMessageReceived_state m info
  rw [h]

theorem membershipMessageReceived_replicaName :
    (membershipMessageReceived m info).1.replicaName = m.replicaName := by
  obtain ⟨_, _, _, h⟩ := membershipMessageReceived_state m info
  rw [h]

theorem membershipMessageReceived_main :
    (membershipMessageReceived m info).1.main = m.main := by
  obtain ⟨_, _, _, h⟩ := membershipMessageReceived_state m info
  rw [h]

/-- A membership message does not touch the account. -/
theorem membershipMessageReceived_replica :
    (membershipMessageReceived m info).1.replica = m.replica := by
  obtain ⟨_, _, _, h⟩ := membershipMessageReceived_state m info
  rw [h]

/-- **The number of replicas that a member expects** rises to the size of the group at the
joining of another process, and never falls. -/
theorem numberOfReplicas_lt_iff (size : ℤ) :
    (membershipMessageReceived m info).1.numberOfReplicas < size ↔ m.numberOfReplicas < size ∧
      (info.isCausedByJoin → info.joined ≠ some m.privateGroup → info.members.length < size) := by
  rcases membershipMessageReceived_cases m info with ⟨hother, h⟩ | ⟨hother, replicas, h⟩ <;> rw [h]
  · rw [welcome_state]
    refine max_lt_iff.trans (and_congr_right fun _ ↦ ?_)
    exact ⟨fun hlt _ _ ↦ hlt, fun hlt ↦ hlt hother.1 hother.2⟩
  · exact ⟨fun hlt ↦ ⟨hlt, fun hjoin hself ↦ absurd ⟨hjoin, hself⟩ hother⟩, And.left⟩

/-- Only a group that has outgrown it changes `numberOfReplicas`. -/
theorem membershipMessageReceived_numberOfReplicas (h : info.members.length ≤ m.numberOfReplicas) :
    (membershipMessageReceived m info).1.numberOfReplicas = m.numberOfReplicas := by
  rcases membershipMessageReceived_cases m info with ⟨-, hm⟩ | ⟨-, replicas, hm⟩ <;> rw [hm]
  · rw [welcome_state]
    exact max_eq_left h
  · rfl

end AdvancedListener

end ReplicatedBank
