import ReplicatedBank.Distributed.Commutation
import ReplicatedBank.Ledger

/-!
# Which orders of execution agree

Transactions applied to an account in two orders.  Deposits commute with deposits and
interest with interest; a deposit of `a` and interest of `p` percent commute exactly if
`a * p = 0`, since the one order yields `a * p / 100` more than the other.  So two orders
lead to the same balance if they agree on the pairs that do not commute
(`reorder_iff`), which is what the transport has to see to.
-/

namespace ReplicatedBank

open Distributed

/-- A `DEPOSIT` or `INTEREST` is applied to the account, as `regularMessageReceived` does. -/
def Client.apply (c : Client) (t : Transaction) : Client :=
  match t.type with
  | .deposit => c.deposit t t.balance
  | .interest => c.addInterest t t.percent
  | .syncedBalance | .updateBalance | .none => c

/-- A deposit of `a` and interest of `p` percent with `a * p ≠ 0`. -/
def Dependent (x y : Transaction) : Prop :=
  x.type = .deposit ∧ y.type = .interest ∧ x.balance * y.percent ≠ 0 ∨
    x.type = .interest ∧ y.type = .deposit ∧ y.balance * x.percent ≠ 0

instance (x y : Transaction) : Decidable (Dependent x y) := instDecidableOr

section

variable {c : Client} {t x y : Transaction} {xs ys ts : List Transaction}

/-- Two transactions commute, on whatever balance, exactly if they are not dependent. -/
theorem effect_comm_iff (x y : Transaction) (b : ℚ) :
    y.effect (x.effect b) = x.effect (y.effect b) ↔ ¬ Dependent x y := by
  cases hx : x.type with
  | deposit =>
      cases hy : y.type with
      | deposit =>
          have heq : b + x.balance + y.balance = b + y.balance + x.balance := by ring
          simp [Transaction.effect, Dependent, hx, hy, heq]
      | interest =>
          have heq : (b + x.balance) * (1 + y.percent / 100) -
              (b * (1 + y.percent / 100) + x.balance) = x.balance * y.percent / 100 := by ring
          simp only [Transaction.effect, Dependent, hx, hy, true_and, false_and, reduceCtorEq,
            or_false, not_not]
          rw [← sub_eq_zero, heq, div_eq_zero_iff, or_iff_left (by norm_num)]
      | _ => simp [Transaction.effect, Dependent, hx, hy]
  | interest =>
      cases hy : y.type with
      | deposit =>
          have heq : b * (1 + x.percent / 100) + y.balance -
              (b + y.balance) * (1 + x.percent / 100) = -(y.balance * x.percent / 100) := by ring
          simp only [Transaction.effect, Dependent, hx, hy, true_and, false_and, reduceCtorEq,
            false_or, not_not]
          rw [← sub_eq_zero, heq, neg_eq_zero, div_eq_zero_iff, or_iff_left (by norm_num)]
      | interest =>
          have heq : b * (1 + x.percent / 100) * (1 + y.percent / 100) =
              b * (1 + y.percent / 100) * (1 + x.percent / 100) := by ring
          simp [Transaction.effect, Dependent, hx, hy, heq]
      | _ => simp [Transaction.effect, Dependent, hx, hy]
  | _ => simp [Transaction.effect, Dependent, hx]

/-! ## Applying a list -/

/-- A `DEPOSIT` or `INTEREST` that is delivered is applied to the account. -/
theorem replica_regularMessageReceived (m : ReplicatedStateMachine) (hm : t.isMonetary) :
    (AdvancedListener.regularMessageReceived m t).replica = m.replica.apply t := by
  unfold AdvancedListener.regularMessageReceived
  rw [m.any_executedList_eq]
  rcases Transaction.isMonetary_iff.mp hm with hty | hty <;> simp only [Client.apply, hty]
  · split
    · rename_i h
      exact (Client.execute_of_alreadyExecuted h).symm
    · rfl
  · split
    · rename_i h
      exact (Client.execute_of_alreadyExecuted h).symm
    · rfl

/-- A new transaction is executed. -/
theorem Client.apply_of_notMem (hm : t.isMonetary) (h : t.uniqueId ∉ ids c.executedList) :
    c.apply t = { c.removeOutstanding t with
      balance := t.effect c.balance
      executedList := c.executedList ++ [t]
      orderCounter := c.orderCounter.incrementAndGet } := by
  have hnot : ¬ c.alreadyExecuted t := fun hc ↦ h (Client.alreadyExecuted_iff.mp hc)
  rcases Transaction.isMonetary_iff.mp hm with hty | hty
  · simp only [Client.apply, hty, Client.deposit, Transaction.effect]
    exact Client.execute_of_not_alreadyExecuted hnot
  · simp only [Client.apply, hty, Client.addInterest, Transaction.effect]
    exact Client.execute_of_not_alreadyExecuted hnot

/-- Different transactions, none of which an account has executed yet. -/
structure New (c : Client) (ts : List Transaction) : Prop where
  isMonetary : ∀ t ∈ ts, t.isMonetary
  nodup : (ids ts).Nodup
  fresh : ∀ t ∈ ts, t.uniqueId ∉ ids c.executedList

theorem New.perm (h : New c xs) (hp : xs.Perm ys) : New c ys where
  isMonetary t ht := h.isMonetary t (hp.symm.subset ht)
  nodup := (hp.map _).nodup_iff.mp h.nodup
  fresh t ht := h.fresh t (hp.symm.subset ht)

theorem New.sublist (h : New c xs) (hs : ys.Sublist xs) : New c ys where
  isMonetary t ht := h.isMonetary t (hs.subset ht)
  nodup := h.nodup.sublist (hs.map _)
  fresh t ht := h.fresh t (hs.subset ht)

/-- New transactions are applied one by one. -/
theorem New.foldl_apply (h : New c ts) :
    (ts.foldl Client.apply c).balance = effects ts c.balance ∧
    (ts.foldl Client.apply c).executedList = c.executedList ++ ts ∧
    (ts.foldl Client.apply c).outstandingCollection =
      ts.foldl (fun o t ↦ o.eraseP (·.uniqueId = t.uniqueId)) c.outstandingCollection := by
  induction ts generalizing c with
  | nil => exact ⟨rfl, (List.append_nil _).symm, rfl⟩
  | cons t ts ih =>
      obtain ⟨hmon, hnodup, hfresh⟩ := h
      rw [ids, List.map_cons, List.nodup_cons] at hnodup
      have happly :=
        Client.apply_of_notMem (hmon t List.mem_cons_self) (hfresh t List.mem_cons_self)
      have hrest : New (c.apply t) ts := by
        refine ⟨fun u hu ↦ hmon u (List.mem_cons_of_mem _ hu), hnodup.2, fun u hu ↦ ?_⟩
        rw [happly, ids_append, List.mem_append, not_or]
        refine ⟨hfresh u (List.mem_cons_of_mem _ hu), fun hmem ↦ hnodup.1 ?_⟩
        have hid : u.uniqueId = t.uniqueId := by simpa [ids] using hmem
        exact hid ▸ List.mem_map_of_mem hu
      obtain ⟨hb, hx, ho⟩ := ih hrest
      rw [List.foldl_cons, hb, hx, ho, happly]
      exact ⟨rfl, List.append_assoc _ _ _, rfl⟩

/-- In whatever order entries with different ids are removed, the same ones go. -/
theorem foldl_eraseP_perm (hp : xs.Perm ys) (hn : (ids xs).Nodup) (o : List Transaction) :
    xs.foldl (fun o t ↦ o.eraseP (·.uniqueId = t.uniqueId)) o =
      ys.foldl (fun o t ↦ o.eraseP (·.uniqueId = t.uniqueId)) o := by
  refine hp.foldl_eq' (fun u hu v hv z ↦ ?_) o
  by_cases huv : u.uniqueId = v.uniqueId
  · rw [List.inj_on_of_nodup_map hn hu hv huv]
  · refine List.eraseP_comm fun w _ ↦ ?_
    by_contra hc
    simp only [decide_eq_true_eq, not_or, not_not] at hc
    exact huv (hc.2.symm.trans hc.1 |>.symm)

/-- **Harmless reorderings.**  Two orders of new transactions that agree on every dependent
pair lead to the same balance and outstanding collection, and execute the same
transactions; and swapping neighbours keeps the balance exactly if they are not
dependent. -/
theorem reorder_iff (hp : xs.Perm ys) (h : New c xs) :
    ((∀ x ∈ xs, ∀ y ∈ xs, Dependent x y → ([x, y].Sublist xs ↔ [x, y].Sublist ys)) →
      (xs.foldl Client.apply c).balance = (ys.foldl Client.apply c).balance ∧
      (xs.foldl Client.apply c).executedList.Perm (ys.foldl Client.apply c).executedList ∧
      (xs.foldl Client.apply c).outstandingCollection =
        (ys.foldl Client.apply c).outstandingCollection) ∧
    ∀ front x y back, xs = front ++ x :: y :: back →
      (((front ++ [y, x]).foldl Client.apply c).balance =
        ((front ++ [x, y]).foldl Client.apply c).balance ↔ ¬ Dependent x y) := by
  have hys := (h.perm hp).foldl_apply
  obtain ⟨hb, hx, ho⟩ := h.foldl_apply
  refine ⟨fun hdep ↦ ⟨?_, ?_, ?_⟩, ?_⟩
  · have hswaps : Swaps (fun x y ↦ ¬ Dependent x y) xs ys :=
      swaps_of_same_order hp (.of_map _ h.nodup) fun x y hxy hbefore ↦
        (hdep x (hbefore.subset List.mem_cons_self) y
          (hbefore.subset (List.mem_cons_of_mem x List.mem_cons_self)) (not_not.mp hxy)).mp hbefore
    rw [hb, hys.1]
    exact hswaps.foldl_eq (fun x y hxy b ↦ (effect_comm_iff x y b).mpr hxy) _
  · rw [hx, hys.2.1]
    exact hp.append_left _
  · rw [ho, hys.2.2]
    exact foldl_eraseP_perm hp h.nodup _
  · rintro front x y back rfl
    have hxy : New c (front ++ [x, y]) :=
      h.sublist ((List.Sublist.refl front).append
        ((List.nil_sublist back).cons_cons y |>.cons_cons x))
    have hyx : New c (front ++ [y, x]) := hxy.perm ((List.Perm.swap y x []).append_left front)
    rw [hyx.foldl_apply.1, hxy.foldl_apply.1]
    simp only [effects, List.foldl_append, List.foldl_cons, List.foldl_nil]
    exact eq_comm.trans (effect_comm_iff x y _)

end

/-- Two deposits and interest on both. -/
def depositsThenInterest : List Transaction :=
  [⟨"Rep1 0", "deposit", 100, 0, .deposit⟩, ⟨"Rep2 0", "deposit", 50, 0, .deposit⟩,
    ⟨"Rep1 1", "addInterest 10", 0, 10, .interest⟩]

/-- The same with the deposits in the other order. -/
def swappedDeposits : List Transaction :=
  [⟨"Rep2 0", "deposit", 50, 0, .deposit⟩, ⟨"Rep1 0", "deposit", 100, 0, .deposit⟩,
    ⟨"Rep1 1", "addInterest 10", 0, 10, .interest⟩]

theorem reorder_iff_depositsThenInterest :
    (depositsThenInterest.foldl Client.apply ⟨0, [], depositsThenInterest, 0, 3⟩).balance =
      (swappedDeposits.foldl Client.apply ⟨0, [], depositsThenInterest, 0, 3⟩).balance :=
  ((reorder_iff (by decide) ⟨by decide, by decide, by decide⟩).1 (by decide +kernel)).1

end ReplicatedBank
