import ReplicatedBank.Process

/-!
# The handler as a function of the messages

What a replica has become after a sequence of messages, interleaved with the queueing of
its own transactions, read off from the sequence alone: which messages are kept, which
`UPDATE_BALANCE` counts, and what is left in the outstanding collection
(`handled_spec`).  The ledger half was computed in `ReplicatedBank.Ledger`; the
outstanding collection is followed here, by induction from the right.
-/

namespace ReplicatedBank

open Distributed

/-- A message is delivered, or a transaction is queued. -/
inductive Handled where
  /-- `regularMessageReceived`. -/
  | message (t : Transaction)
  /-- `addOutstandingCollection`. -/
  | queue (t : Transaction)

namespace Handled

/-- The effect on the replica. -/
def apply (m : ReplicatedStateMachine) : Handled → ReplicatedStateMachine
  | .message t => AdvancedListener.regularMessageReceived m t
  | .queue t => { m with replica := m.replica.addOutstandingCollection t }

def message? : Handled → Option Transaction
  | .message t => some t
  | .queue _ => none

def queue? : Handled → Option Transaction
  | .message _ => none
  | .queue t => some t

/-- The messages of a sequence. -/
def messages (es : List Handled) : List Transaction := es.filterMap message?

/-- The transactions queued in a sequence. -/
def queues (es : List Handled) : List Transaction := es.filterMap queue?

/-- The replica that has just been started, after a sequence. -/
def after (replicaName privateGroup : String) (numberOfReplicas : ℤ) (es : List Handled) :
    ReplicatedStateMachine :=
  es.foldl apply (.new replicaName privateGroup numberOfReplicas)

/-- A transaction is queued under an id that has been neither queued nor delivered. -/
def Fresh (es : List Handled) : Prop :=
  ∀ front t back, es = front ++ .queue t :: back →
    t.uniqueId ∉ ids (queues front) ∧ t.uniqueId ∉ ids (messages front)

section

variable {es : List Handled} {t : Transaction}

@[simp] theorem messages_concat_message : messages (es ++ [.message t]) = messages es ++ [t] := by
  simp [messages, message?]

@[simp] theorem messages_concat_queue : messages (es ++ [.queue t]) = messages es := by
  simp [messages, message?]

@[simp] theorem queues_concat_message : queues (es ++ [.message t]) = queues es := by
  simp [queues, queue?]

@[simp] theorem queues_concat_queue : queues (es ++ [.queue t]) = queues es ++ [t] := by
  simp [queues, queue?]

theorem fresh_nil : Fresh [] := fun front t back h ↦ by simp at h

theorem fresh_concat_iff (es : List Handled) (e : Handled) : Fresh (es ++ [e]) ↔ Fresh es ∧
    ∀ t ∈ e.queue?, t.uniqueId ∉ ids (queues es) ∧ t.uniqueId ∉ ids (messages es) := by
  constructor
  · refine fun h ↦ ⟨?_, fun t ht ↦ h es t [] ?_⟩
    · rintro front t back rfl
      exact h front t (back ++ [e]) (by simp)
    · cases e with
      | message u => cases ht
      | queue u => rw [Option.mem_some.mp ht]
  · rintro ⟨h, hlast⟩ front t back heq
    rcases List.eq_nil_or_concat back with rfl | ⟨back, b, rfl⟩
    · obtain ⟨rfl, he⟩ := List.append_inj' heq rfl
      exact hlast t (by rw [List.cons.inj he |>.1]; rfl)
    · rw [List.concat_eq_append, ← List.cons_append, ← List.append_assoc] at heq
      obtain ⟨rfl, -⟩ := List.append_inj' heq rfl
      exact h front t back rfl

theorem Fresh.of_concat {e : Handled} (h : Fresh (es ++ [e])) : Fresh es :=
  ((fresh_concat_iff _ _).mp h).1

theorem Fresh.last (h : Fresh (es ++ [.queue t])) :
    t.uniqueId ∉ ids (queues es) ∧ t.uniqueId ∉ ids (messages es) :=
  ((fresh_concat_iff _ _).mp h).2 t rfl

theorem Fresh.nodup (h : Fresh es) : (ids (queues es)).Nodup := by
  induction es using List.reverseRecOn with
  | nil => exact List.nodup_nil
  | append_singleton es e ih =>
      have ih := ih h.of_concat
      cases e with
      | message t => rwa [queues_concat_message]
      | queue t =>
          rw [queues_concat_queue, ids_append]
          refine List.nodup_append.mpr ⟨ih, List.nodup_singleton _, fun a ha b hb hab ↦ ?_⟩
          obtain rfl := List.mem_singleton.mp hb
          exact h.last.1 (hab ▸ ha)

end

end Handled

/-! ## What is kept and what counts -/

/-- The `DEPOSIT`s and `INTEREST`s of a sequence, each with its first occurrence only. -/
def kept (ts : List Transaction) : List Transaction :=
  firstCopies Transaction.uniqueId (monetary ts)

/-- An `UPDATE_BALANCE` after some messages whose id is not that of a `DEPOSIT` or
`INTEREST` among them. -/
def Installable (front : List Transaction) (u : Transaction) : Prop :=
  u.type = .updateBalance ∧ u.uniqueId ∉ ids (monetary front)

/-- A transaction that a delivered message takes out of the outstanding collection. -/
def Taken (ts : List Transaction) (t : Transaction) : Prop :=
  ∃ u ∈ ts, (u.isMonetary ∨ u.type = .syncedBalance) ∧ u.uniqueId = t.uniqueId

instance (ts : List Transaction) : DecidablePred (Taken ts) := fun _ ↦
  inferInstanceAs (Decidable (∃ u ∈ ts, _))

section

variable {ts : List Transaction} {t u : Transaction}

theorem taken_concat : Taken (ts ++ [u]) t ↔
    Taken ts t ∨ (u.isMonetary ∨ u.type = .syncedBalance) ∧ u.uniqueId = t.uniqueId := by
  simp only [Taken, List.mem_append, List.mem_singleton, or_and_right, exists_or, exists_eq_left]

/-- Nothing is installed exactly if there is nothing that could be. -/
theorem installedFrom_eq_none_iff {taken : List String} : installedFrom taken ts = none ↔
    ∀ front u back, ts = front ++ u :: back → u.type = .updateBalance →
      u.uniqueId ∈ taken ∨ u.uniqueId ∈ ids (monetary front) := by
  induction ts generalizing taken with
  | nil => exact iff_of_true rfl fun front u back h ↦ by simp at h
  | cons t ts ih =>
      have hids : ∀ front x, x ∈ ids (monetary (t :: front)) ↔
          t.isMonetary ∧ x = t.uniqueId ∨ x ∈ ids (monetary front) := by
        intro front x
        rw [show t :: front = [t] ++ front from rfl, monetary_append, ids_append, List.mem_append]
        by_cases hm : t.isMonetary
        · simp only [monetary_singleton_of_isMonetary hm, hm, true_and]
          exact or_congr_left List.mem_singleton
        · simp only [monetary_singleton_of_not_isMonetary hm, hm, Bool.false_eq_true, false_and]
          exact or_congr_left (iff_of_false List.not_mem_nil id)
      rw [installedFrom]
      by_cases ht : t.type = .updateBalance ∧ t.uniqueId ∉ taken
      · rw [if_pos ht]
        refine iff_of_false (Option.some_ne_none t) fun h ↦ ?_
        exact (h [] t ts rfl ht.1).elim ht.2 List.not_mem_nil
      · rw [if_neg ht, ih]
        constructor
        · intro h front u back heq hu
          rcases List.cons_eq_append_iff.mp heq with ⟨rfl, hcons⟩ | ⟨front, rfl, hts⟩
          · obtain ⟨rfl, rfl⟩ := List.cons.inj hcons
            exact .inl (not_not.mp fun hc ↦ ht ⟨hu, hc⟩)
          · rw [hids]
            have := h front u back hts hu
            split at this
            · rename_i hm
              rw [List.mem_cons] at this
              tauto
            · tauto
        · intro h front u back heq hu
          have := h (t :: front) u back (by rw [heq, List.cons_append]) hu
          rw [hids] at this
          split
          · rw [List.mem_cons]
            tauto
          · tauto

theorem installed_eq_none_iff : installed ts = none ↔
    ∀ front u back, ts = front ++ u :: back → ¬ Installable front u := by
  rw [installed, installedFrom_eq_none_iff]
  simp only [List.not_mem_nil, false_or, Installable, not_and, not_not]

/-- The balance is the installed one, and what is kept after the installation on top. -/
theorem balance_foldl_of_installable {front back : List Transaction} (hu : Installable front u)
    (hfirst : installed front = none) :
    ((front ++ u :: back).foldl Ledger.deliver .empty).balance =
      effects ((kept (front ++ u :: back)).drop (kept front).length) u.balance := by
  have hfront : (front.foldl Ledger.deliver .empty).executed = kept front :=
    Ledger.executed_foldl rfl front
  have hinst : (front.foldl Ledger.deliver .empty).Installs u := by
    refine ⟨hu.1, ?_, ?_⟩
    · rw [Ledger.initialized_foldl, hfirst, Option.isSome_none]
    · rw [Ledger.mem_ids_executed_foldl rfl]
      exact hu.2
  obtain ⟨-, new, hx, hb⟩ := Ledger.foldl_of_initialized
    (show { front.foldl Ledger.deliver .empty with
      balance := u.balance, initialized := true }.initialized from rfl) back
  have hall : (front ++ u :: back).foldl Ledger.deliver .empty = back.foldl Ledger.deliver
      { front.foldl Ledger.deliver .empty with balance := u.balance, initialized := true } := by
    rw [List.foldl_append, List.foldl_cons, Ledger.deliver_of_installs hinst]
  have hkept : kept (front ++ u :: back) = kept front ++ new := by
    rw [← hfront, ← hx, ← hall]
    exact (Ledger.executed_foldl rfl _).symm
  rw [hall, hb, hkept, List.drop_left]

end

/-! ## The outstanding collection -/

namespace Handled

variable {es : List Handled} (replicaName privateGroup : String) (numberOfReplicas : ℤ)

theorem ledger_after : (after replicaName privateGroup numberOfReplicas es).ledger =
    (messages es).foldl Ledger.deliver .empty := by
  induction es using List.reverseRecOn with
  | nil => rfl
  | append_singleton es e ih =>
      rw [after, List.foldl_append, List.foldl_cons, List.foldl_nil, ← after]
      cases e with
      | message t =>
          rw [messages_concat_message, List.foldl_append, ← ih]
          exact ReplicatedStateMachine.ledger_regularMessageReceived _ t
      | queue t =>
          rw [messages_concat_queue, ← ih]
          rfl

/-- If the filter stops a transaction, one with its id has been delivered before. -/
theorem exists_of_not_consumes {t : Transaction}
    (hc : ¬ AdvancedListener.Consumes (after replicaName privateGroup numberOfReplicas es) t)
    (hty : t.isMonetary ∨ t.type = .syncedBalance) :
    ∃ u ∈ messages es, u.isMonetary ∧ u.uniqueId = t.uniqueId := by
  have hmem : t.uniqueId ∈ ids
      (after replicaName privateGroup numberOfReplicas es).ledger.executed := by
    by_contra hfresh
    exact hc ⟨hfresh, hty⟩
  rw [ledger_after, Ledger.mem_ids_executed_foldl rfl, mem_ids] at hmem
  obtain ⟨u, hu, huid⟩ := hmem
  obtain ⟨hu, hm⟩ := mem_monetary.mp hu
  exact ⟨u, hu, hm, huid⟩

/-- What has been queued and not been taken out is what is outstanding. -/
theorem outstanding_after (h : Fresh es) :
    (after replicaName privateGroup numberOfReplicas es).replica.outstandingCollection =
      (queues es).filter (¬ Taken (messages es) ·) := by
  induction es using List.reverseRecOn with
  | nil => rfl
  | append_singleton es e ih =>
      have ih := ih h.of_concat
      rw [after, List.foldl_append, List.foldl_cons, List.foldl_nil, ← after]
      cases e with
      | queue t =>
          have ht : ¬ Taken (messages es) t := by
            rintro ⟨u, hu, -, hid⟩
            exact h.last.2 (mem_ids.mpr ⟨u, hu, hid⟩)
          rw [queues_concat_queue, messages_concat_queue, List.filter_append, ← ih]
          simp only [apply, Client.addOutstandingCollection, List.filter_cons, ht,
            not_false_eq_true, decide_true, if_true, List.filter_nil]
      | message t =>
          rw [queues_concat_message, messages_concat_message]
          by_cases hc : AdvancedListener.Consumes
            (after replicaName privateGroup numberOfReplicas es) t
          · have hnodup : (ids ((queues es).filter (¬ Taken (messages es) ·))).Nodup :=
              h.of_concat.nodup.sublist (List.filter_sublist.map _)
            refine (AdvancedListener.outstandingCollection_of_consumes hc).trans ?_
            rw [ih, eraseP_eq_filter hnodup, List.filter_filter]
            refine List.filter_congr fun v _ ↦ ?_
            rw [← Bool.decide_and, decide_eq_decide, taken_concat, not_or, and_comm]
            refine and_congr_right' (not_congr ?_)
            exact ⟨fun hid ↦ ⟨hc.type_eq, hid.symm⟩, fun hv ↦ hv.2.symm⟩
          · refine (AdvancedListener.outstandingCollection_of_not_consumes hc).trans (ih.trans ?_)
            refine List.filter_congr fun v _ ↦ ?_
            rw [decide_eq_decide, not_iff_not, taken_concat]
            constructor
            · exact .inl
            · rintro (hv | ⟨hty, hid⟩)
              · exact hv
              · obtain ⟨u, hu, hm, huid⟩ := exists_of_not_consumes _ _ _ hc hty
                exact ⟨u, hu, .inl hm, huid.trans hid⟩

end Handled

/-- **The handler, completely.**  After any messages, and transactions queued under fresh
ids, a replica has kept the first occurrences; its balance is what they make of the first
balance that could be installed, from there on, or of 0; and it still holds what has not
been delivered. -/
theorem handled_spec (replicaName privateGroup : String) (numberOfReplicas : ℤ)
    {es : List Handled} (h : Handled.Fresh es) :
    let ts := Handled.messages es
    let c := (Handled.after replicaName privateGroup numberOfReplicas es).replica
    c.executedList = kept ts ∧
    (∀ front u back, ts = front ++ u :: back → Installable front u →
      (∀ front' v back', front = front' ++ v :: back' → ¬ Installable front' v) →
      c.balance = effects ((kept ts).drop (kept front).length) u.balance) ∧
    ((∀ front u back, ts = front ++ u :: back → ¬ Installable front u) →
      c.balance = effects (kept ts) 0) ∧
    c.outstandingCollection = (Handled.queues es).filter (¬ Taken ts ·) := by
  intro ts c
  have hledger : (Handled.after replicaName privateGroup numberOfReplicas es).ledger =
      ts.foldl Ledger.deliver .empty := Handled.ledger_after _ _ _
  have hexecuted : c.executedList = kept ts :=
    (congrArg Ledger.executed hledger).trans (Ledger.executed_foldl rfl ts)
  have hbalance : c.balance = (ts.foldl Ledger.deliver .empty).balance :=
    congrArg Ledger.balance hledger
  refine ⟨hexecuted, fun front u back hts hu hfirst ↦ ?_, fun hnone ↦ ?_,
    Handled.outstanding_after _ _ _ h⟩
  · rw [hbalance, hts]
    exact balance_foldl_of_installable hu (installed_eq_none_iff.mpr hfirst)
  · rw [hbalance, Ledger.balance_foldl_of_installed_eq_none ts (installed_eq_none_iff.mpr hnone),
      Ledger.executed_foldl rfl]
    rfl

/-- A balance of 50 is installed between two deposits, of which the first comes back. -/
def installedBetween : List Handled :=
  [.queue ⟨"Rep1 0", "deposit", 100, 0, .deposit⟩, .message ⟨"Rep1 0", "deposit", 100, 0, .deposit⟩,
    .message ⟨"Rep2 0", "updateBalance Rep2", 50, 0, .updateBalance⟩,
    .message ⟨"Rep1 0", "deposit", 100, 0, .deposit⟩,
    .message ⟨"Rep2 0", "deposit", 7, 0, .deposit⟩]

theorem fresh_installedBetween : Handled.Fresh installedBetween := by
  refine (Handled.fresh_concat_iff (installedBetween.take 4) _).mpr ⟨?_, by decide⟩
  refine (Handled.fresh_concat_iff (installedBetween.take 3) _).mpr ⟨?_, by decide⟩
  refine (Handled.fresh_concat_iff (installedBetween.take 2) _).mpr ⟨?_, by decide⟩
  refine (Handled.fresh_concat_iff (installedBetween.take 1) _).mpr ⟨?_, by decide⟩
  exact (Handled.fresh_concat_iff [] _).mpr ⟨Handled.fresh_nil, by decide⟩

theorem handled_spec_installedBetween :
    (Handled.after "Rep1" "#Rep1" 2 installedBetween).replica.executedList =
      [⟨"Rep1 0", "deposit", 100, 0, .deposit⟩, ⟨"Rep2 0", "deposit", 7, 0, .deposit⟩] :=
  (handled_spec "Rep1" "#Rep1" 2 fresh_installedBetween).1.trans (by decide)

end ReplicatedBank
