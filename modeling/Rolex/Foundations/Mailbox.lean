import Mathlib

/-!
The messages under way, seen from one address: what is put behind them, and what is taken out of
their middle.
-/

namespace Mailbox

variable {M K : Type} [DecidableEq K] {addr : M → K} {k : K} {ms : List M} {m : M} {i : ℕ}

/-- The messages with one address. -/
def mail (addr : M → K) (k : K) (ms : List M) : List M := ms.filter fun m => addr m = k

@[simp] theorem mail_nil : mail addr k [] = [] := rfl

theorem mail_concat_self (h : addr m = k) : mail addr k (ms ++ [m]) = mail addr k ms ++ [m] := by
  rw [mail, List.filter_append, List.filter_singleton, decide_eq_true h, cond_true, mail]

theorem mail_concat_ne (h : addr m ≠ k) : mail addr k (ms ++ [m]) = mail addr k ms := by
  rw [mail, List.filter_append, List.filter_singleton, decide_eq_false h, cond_false,
    List.append_nil, mail]

theorem mem_mail (hm : ms[i]? = some m) (h : addr m = k) : m ∈ mail addr k ms :=
  List.mem_filter.mpr ⟨List.mem_of_getElem? hm, decide_eq_true h⟩

theorem exists_of_mail (h : mail addr k ms = [m]) : ∃ i : ℕ, ms[i]? = some m ∧ addr m = k := by
  obtain ⟨hmem, haddr⟩ := List.mem_filter.mp (h ▸ List.mem_singleton_self m : m ∈ mail addr k ms)
  obtain ⟨i, hi⟩ := List.mem_iff_getElem?.mp hmem
  exact ⟨i, hi, of_decide_eq_true haddr⟩

theorem mail_split (hm : ms[i]? = some m) (k : K) :
    mail addr k ms = mail addr k (ms.take i) ++ mail addr k (m :: ms.drop (i + 1)) := by
  obtain ⟨hi, rfl⟩ := List.getElem?_eq_some_iff.mp hm
  rw [mail, mail, mail, ← List.filter_append, ← List.drop_eq_getElem_cons hi, List.take_append_drop]

theorem mail_eraseIdx_ne (hm : ms[i]? = some m) (h : addr m ≠ k) :
    mail addr k (ms.eraseIdx i) = mail addr k ms := by
  rw [mail_split hm, List.eraseIdx_eq_take_drop_succ, mail, List.filter_append, mail, mail,
    List.filter_cons_of_neg (by simpa using h)]

theorem mail_eraseIdx_self (hm : ms[i]? = some m) (hk : addr m = k) {q : M}
    (h : mail addr k ms = [q]) : m = q ∧ mail addr k (ms.eraseIdx i) = [] := by
  rw [mail_split hm, mail, mail, List.filter_cons_of_pos (by simpa using hk)] at h
  rw [List.eraseIdx_eq_take_drop_succ, mail, List.filter_append]
  rcases List.append_eq_singleton_iff.mp h with ⟨hpre, hpost⟩ | ⟨_, hpost⟩
  · obtain ⟨rfl, hrest⟩ := List.cons_eq_cons.mp hpost
    exact ⟨rfl, by rw [hpre, hrest, List.append_nil]⟩
  · cases hpost

end Mailbox
