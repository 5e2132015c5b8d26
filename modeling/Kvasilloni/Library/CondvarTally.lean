import Mathlib.Data.Nat.Notation
import Mathlib.Tactic.Common

/-!
The bookkeeping of a condition variable whose waiters wait for items and whose
signals wake one waiter each. Only numbers are kept: the items, the signals that are
still to be given, the waiters that have been woken and have yet to look again, and
the waiters that are parked. As long as every woken waiter that finds an item takes
one, no waiter stays parked beside an item without a wakeup on its way; one that leaves
the item behind may undo that.
-/
namespace CondvarTally

structure Tally where
  items : ℕ
  signals : ℕ
  woken : ℕ
  parked : ℕ

/-- The signals to come reach every parked waiter, or every item has a signal or a
woken waiter of its own. -/
def Balanced (t : Tally) : Prop :=
  t.parked ≤ t.signals ∨ t.items ≤ t.signals + t.woken

/-- A waiter is parked although there is an item, and nothing is on its way to wake it. -/
def Stranded (t : Tally) : Prop :=
  0 < t.items ∧ 0 < t.parked ∧ t.signals = 0 ∧ t.woken = 0

/-- A woken waiter leaves without an item. -/
def Tally.leave (t : Tally) : Tally := { t with woken := t.woken - 1 }

/-- What may happen at the condition variable. Waiters park only where there is no item,
and a woken waiter that finds one takes it. -/
inductive Move (t : Tally) : Tally → Prop
  | produce : Move t { t with items := t.items + 1, signals := t.signals + 1 }
  | signal (k m : ℕ) (hparked : t.parked = k + 1) (hsignals : t.signals = m + 1) :
      Move t { t with signals := m, woken := t.woken + 1, parked := k }
  | signalNone (m : ℕ) (hparked : t.parked = 0) (hsignals : t.signals = m + 1) :
      Move t { t with signals := m }
  | wake (k : ℕ) (hparked : t.parked = k + 1) :
      Move t { t with woken := t.woken + 1, parked := k }
  | wakeAll : Move t { t with woken := t.woken + t.parked, parked := 0 }
  | park (hnone : t.items = 0) : Move t { t with parked := t.parked + 1 }
  | parkAgain (w : ℕ) (hnone : t.items = 0) (hwoken : t.woken = w + 1) :
      Move t { t with woken := w, parked := t.parked + 1 }
  | takeWoken (n w : ℕ) (hitems : t.items = n + 1) (hwoken : t.woken = w + 1) :
      Move t { t with items := n, woken := w }
  | leave (hnone : t.items = 0) : Move t t.leave
  | take (n : ℕ) (hitems : t.items = n + 1) : Move t { t with items := n }
  | drain : Move t { t with items := 0 }
  | stay : Move t t

theorem Balanced.of_no_items {t : Tally} (h : t.items = 0) : Balanced t := by
  refine Or.inr ?_
  rw [h]
  exact Nat.zero_le _

theorem Move.balanced {t t' : Tally} (hmove : Move t t') (hbal : Balanced t) :
    Balanced t' := by
  cases hmove with
  | stay => exact hbal
  | drain => exact Balanced.of_no_items rfl
  | wakeAll => exact Or.inl (Nat.zero_le _)
  | park hnone | parkAgain w hnone hwoken | leave hnone => exact Balanced.of_no_items hnone
  | signalNone m hparked hsignals =>
    refine Or.inl ?_
    show t.parked ≤ m
    omega
  | produce | signal k m hparked hsignals | wake k hparked | takeWoken n w hitems hwoken
  | take n hitems =>
    simp only [Balanced] at hbal ⊢
    omega

theorem Balanced.not_stranded {t : Tally} (h : Balanced t) : ¬ Stranded t := by
  rintro ⟨hitems, hparked, hsignals, hwoken⟩
  simp only [Balanced] at h
  omega

end CondvarTally
