import Lox.Execution

/-!
# More rounds change no result

Execution has no result when a loop takes more rounds than it is given.  A result that is there
does not depend on the number of rounds.

Main statements:
* `Keeps`: what one action answers, another answers as well;
* `keeps_bind`, `keeps_inScope` and `keeps_iterate`: the ways to build actions respect this;
* `keeps_execute` and `keeps_executeAll`: statements keep their result when given more rounds;
* `interpret_of_le`: so does a program.
-/

namespace Lox

/-- What the first action answers, the second answers as well. -/
def Keeps {α : Type} (a b : Execution α) : Prop :=
  ∀ machine result, a machine = some result → b machine = some result

theorem keeps_refl {α : Type} (a : Execution α) : Keeps a a := fun _ _ h => h

theorem keeps_bind {α β : Type} {a a' : Execution α} {f f' : α → Execution β}
    (ha : Keeps a a') (hf : ∀ x, Keeps (f x) (f' x)) : Keeps (a >>= f) (a' >>= f') := by
  intro machine result h
  simp only [bind, ExceptT.bind, ExceptT.mk, StateT.bind, ExceptT.bindCont] at h ⊢
  cases ham : a machine with
  | none => simp [ham, Option.bind] at h
  | some r =>
    rw [ha machine r ham]
    rw [ham] at h
    obtain ⟨r, after⟩ := r
    cases r with
    | error e => exact h
    | ok x => exact hf x after result h

theorem keeps_inScope {a b : Execution Unit} (h : Keeps a b) :
    Keeps (inScope a) (inScope b) := by
  intro machine result hr
  simp only [inScope] at hr ⊢
  split at hr
  · cases hr
  · next r after ha => rw [h _ _ ha]; exact hr

/-- A loop that ends within some rounds ends the same way within more. -/
theorem keeps_iterate {c : Execution Bool} {a b : Execution Unit} (h : Keeps a b) (n m : Nat)
    (hnm : n ≤ m) : Keeps (iterate c a n) (iterate c b m) := by
  intro machine result hr
  induction n generalizing m machine with
  | zero => simp [iterate] at hr
  | succ n ih =>
    obtain ⟨m, rfl⟩ : ∃ k, m = k + 1 := ⟨m - 1, by omega⟩
    simp only [iterate] at hr ⊢
    split at hr
    · cases hr
    · exact hr
    · exact hr
    · split at hr
      · cases hr
      · next ha => rw [h _ _ ha]; exact hr
      · next after ha => rw [h _ _ ha]; exact ih m (by omega) after hr

mutual

/-- A statement that ends within some rounds ends the same way within more. -/
theorem keeps_execute {n m : Nat} (h : n ≤ m) : ∀ s, Keeps (execute n s) (execute m s)
  | .block body => by
    simp only [execute]; exact keeps_inScope (keeps_executeAll h body)
  | .expression e => by simp only [execute]; exact keeps_refl _
  | .if c t none => by
    simp only [execute]
    refine keeps_bind (keeps_refl _) fun x => ?_
    cases x
    · exact keeps_refl _
    · exact keeps_execute h t
  | .if c t (some e) => by
    simp only [execute]
    refine keeps_bind (keeps_refl _) fun x => ?_
    cases x
    · exact keeps_execute h e
    · exact keeps_execute h t
  | .print e => by simp only [execute]; exact keeps_refl _
  | .var name none => by simp only [execute]; exact keeps_refl _
  | .var name (some e) => by simp only [execute]; exact keeps_refl _
  | .while c b => by
    simp only [execute]
    exact keeps_iterate (keeps_execute h b) n m h

/-- The same holds of statements in order. -/
theorem keeps_executeAll {n m : Nat} (h : n ≤ m) : ∀ l, Keeps (executeAll n l) (executeAll m l)
  | [] => by simp only [executeAll]; exact keeps_refl _
  | s :: l => by
    simp only [executeAll]
    exact keeps_bind (keeps_execute h s) fun _ => keeps_executeAll h l

end

/-- A program that ends within some rounds ends the same way within more. -/
theorem interpret_of_le {n m : Nat} (h : n ≤ m) {statements : List Stmt} {machine : Machine}
    {result : List RuntimeError × Machine} (hr : interpret n statements machine = some result) :
    interpret m statements machine = some result := by
  induction statements generalizing machine result with
  | nil => exact hr
  | cons statement rest ih =>
    simp only [interpret] at hr ⊢
    split at hr
    · cases hr
    · next after ha =>
      rw [keeps_execute h statement _ _ ha]
      exact ih hr
    · next e after ha =>
      rw [keeps_execute h statement _ _ ha]
      obtain ⟨last, hl, rfl⟩ := Option.map_eq_some_iff.1 hr
      simp only [ih hl, Option.map_some]

end Lox
