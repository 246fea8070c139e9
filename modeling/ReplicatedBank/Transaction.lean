import Mathlib

/-!
# Transactions and their identifiers

The messages of the system (`utils/Transaction.java`, `utils/TransactionType.java`)
and the identifier under which a replica queues one: its name, a space and the
decimal value of its counter.  Identifiers are compared as strings everywhere, so
the one fact the rest needs about them is `uniqueId_inj`.

Amounts are exact rationals; the program's `double`s round.
-/

namespace ReplicatedBank

/-- `TransactionType`. -/
inductive TransactionType where
  | deposit
  | interest
  | syncedBalance
  | updateBalance
  | none
deriving DecidableEq, Repr

/-- `Transaction`; `balance` and `percent` start at `0.0`. -/
structure Transaction where
  uniqueId : String
  command : String
  balance : ℚ := 0
  percent : ℚ := 0
  type : TransactionType
deriving DecidableEq

/-- The transactions that `executedList` records: `DEPOSIT` and `INTEREST`. -/
def Transaction.isMonetary (t : Transaction) : Bool :=
  match t.type with
  | .deposit | .interest => true
  | .syncedBalance | .updateBalance | .none => false

theorem Transaction.isMonetary_iff {t : Transaction} :
    t.isMonetary ↔ t.type = .deposit ∨ t.type = .interest := by
  cases h : t.type <;> simp [isMonetary, h]

theorem Transaction.ne_updateBalance {t : Transaction} (h : t.isMonetary) :
    t.type ≠ .updateBalance := by
  rintro hty
  simp [isMonetary, hty] at h

theorem Transaction.ne_syncedBalance {t : Transaction} (h : t.isMonetary) :
    t.type ≠ .syncedBalance := by
  rintro hty
  simp [isMonetary, hty] at h

/-! ## Counters -/

/-- `java.util.concurrent.atomic.AtomicInteger`: a 32-bit two's-complement integer. -/
abbrev AtomicInteger := Int32

/-- `AtomicInteger.incrementAndGet`, wrapping around at `2 ^ 31`. -/
def AtomicInteger.incrementAndGet (c : AtomicInteger) : AtomicInteger := c + 1

/-- The counter after `n` increments from `0`. -/
def AtomicInteger.after (n : ℕ) : AtomicInteger := Int32.ofNat n

@[simp] theorem AtomicInteger.after_zero : AtomicInteger.after 0 = 0 := rfl

@[simp] theorem AtomicInteger.incrementAndGet_after (n : ℕ) :
    (AtomicInteger.after n).incrementAndGet = AtomicInteger.after (n + 1) :=
  (Int32.ofNat_add n 1).symm

/-- The value of a counter is the number of increments modulo `2 ^ 32`, read as a
signed integer. -/
theorem AtomicInteger.toInt_after (n : ℕ) :
    (AtomicInteger.after n).toInt = (n : ℤ).bmod (2 ^ 32) := by
  simp [AtomicInteger.after]

/-- Two counts below `2 ^ 32` give different counter values. -/
theorem AtomicInteger.after_inj {m n : ℕ} (hm : m < 2 ^ 32) (hn : n < 2 ^ 32)
    (h : AtomicInteger.after m = AtomicInteger.after n) : m = n := by
  have hb : (m : ℤ).bmod (2 ^ 32) = (n : ℤ).bmod (2 ^ 32) := by
    rw [← toInt_after, ← toInt_after, h]
  have hmod : (m : ℤ) % ((2 ^ 32 : ℕ) : ℤ) = (n : ℤ) % ((2 ^ 32 : ℕ) : ℤ) := by
    rw [← Int.bmod_emod, hb, Int.bmod_emod]
  omega

/-- After `2 ^ 32` increments a counter is back where it was. -/
theorem AtomicInteger.after_two_pow : AtomicInteger.after (2 ^ 32) = 0 := by decide +kernel

/-! ## Identifiers -/

/-- The expression `replicaName + " " + replica.getOutstandingCounter()`. -/
def uniqueId (replicaName : String) (outstandingCounter : AtomicInteger) : String :=
  replicaName ++ " " ++ toString outstandingCounter

/-- A decimal number contains no space. -/
theorem space_notMem_repr (z : ℤ) : ' ' ∉ z.repr.toList := by
  have hnat : ∀ n : ℕ, ' ' ∉ n.repr.toList := by
    intro n h
    rw [Nat.toList_repr] at h
    exact absurd (Nat.isDigit_of_mem_toDigits (by decide) (by decide) h) (by decide)
  cases z with
  | ofNat n => exact hnat n
  | negSucc n =>
      have : (Int.negSucc n).repr = "-" ++ (n + 1).repr := rfl
      rw [this, String.toList_append, List.mem_append, not_or]
      exact ⟨by decide, hnat (n + 1)⟩

/-- A list splits in one way at its last occurrence of an element. -/
theorem append_cons_inj_of_notMem_right {α : Type} [DecidableEq α] {a : α}
    {u u' v v' : List α} (hv : a ∉ v) (hv' : a ∉ v') (h : u ++ a :: v = u' ++ a :: v') :
    u = u' ∧ v = v' := by
  have htake : ∀ {u v : List α}, a ∉ v →
      ((u ++ a :: v).reverse.takeWhile (· ≠ a)).reverse = v := by
    intro u v hv
    have hall : ∀ x ∈ v.reverse, (decide (x ≠ a)) = true := fun x hx ↦ by
      simpa using fun hc : x = a ↦ hv (by simpa [hc] using hx)
    rw [List.reverse_append, List.reverse_cons, List.append_assoc,
      List.takeWhile_append_of_pos hall]
    simp
  have hvv : v = v' := by rw [← htake (u := u) hv, h, htake hv']
  subst hvv
  exact ⟨List.append_cancel_right h, rfl⟩

/-- **Identifiers are injective** in the name and the counter, whatever characters
the names contain. -/
theorem uniqueId_inj {n n' : String} {c c' : AtomicInteger} :
    uniqueId n c = uniqueId n' c' ↔ n = n' ∧ c = c' := by
  refine ⟨fun h ↦ ?_, fun ⟨hn, hc⟩ ↦ by rw [hn, hc]⟩
  have hl := congrArg String.toList h
  have hc : ∀ c : AtomicInteger, toString c = c.toInt.repr := fun _ ↦ rfl
  simp only [uniqueId, String.toList_append, hc, List.append_assoc,
    List.singleton_append, show " ".toList = [' '] from rfl] at hl
  obtain ⟨hu, hv⟩ := append_cons_inj_of_notMem_right (space_notMem_repr _)
    (space_notMem_repr _) hl
  exact ⟨String.toList_inj.mp hu, Int32.toInt_inj.mp (Int.repr_injective (String.toList_inj.mp hv))⟩

/-- A transaction carrying an identifier of a replica. -/
def Issued (replicaName : String) (t : Transaction) : Prop :=
  ∃ c, t.uniqueId = uniqueId replicaName c

/-- An identifier belongs to one name. -/
theorem Issued.name_eq {n n' : String} {t t' : Transaction} (h : Issued n t) (h' : Issued n' t')
    (hid : t.uniqueId = t'.uniqueId) : n = n' := by
  obtain ⟨c, hc⟩ := h
  obtain ⟨c', hc'⟩ := h'
  exact (uniqueId_inj.mp (hc.symm.trans (hid.trans hc'))).1

end ReplicatedBank
