import Mathlib.Data.Set.Card
import Mathlib.Order.Bounds.Defs
import Lox.Evaluation

/-!
# Frames of a history

Which frames an environment has can be told from the operations that were made on it, without the
environment.  Every push opens a frame, and the pop that matches it closes the frame, as an opening
and a closing bracket match.  A pop that matches no push does nothing, and the global frame is never
closed.

* `Operation` and `environmentAfter`: the operations, and the environment after some of them;
* `Balanced` and `Undone`: which pop matches a push;
* `Live` and `Innermost`: the frames that are left, and the last of them;
* `Frames`: all live frames in order, with a lemma for each operation that says what becomes of
  them.
-/

namespace Lox.History

/-- What can be done to an environment. -/
inductive Operation where
  | push
  | pop
  | define (name : String) (value : Value)
  | assign (name : Token) (value : Value)
  | read (name : Token)
  deriving DecidableEq

/-- The environment that an operation leaves. -/
def Operation.perform : Operation → Environment → Environment
  | .push, environment => environment.push
  | .pop, environment => environment.pop
  | .define name value, environment => environment.define name value
  | .assign name value, environment => (assignTo name value environment).2
  | .read _, environment => environment

/-- The environment after a history, which begins with a new environment. -/
def environmentAfter (history : List Operation) : Environment :=
  history.foldl (fun environment operation => operation.perform environment) .empty

theorem environmentAfter_concat (history : List Operation) (operation : Operation) :
    environmentAfter (history ++ [operation]) = operation.perform (environmentAfter history) := by
  rw [environmentAfter, List.foldl_append]
  rfl

/-! ### Which frames are live -/

/-- There are as many pushes as pops, and up to no point more pops than pushes. -/
def Balanced (operations : List Operation) : Prop :=
  operations.count .push = operations.count .pop ∧
    ∀ part, part <+: operations → part.count .pop ≤ part.count .push

/-- A push is undone by what was done later: there is a pop, and all between the two is balanced. -/
def Undone (later : List Operation) : Prop :=
  ∃ between, Balanced between ∧ between ++ [.pop] <+: later

/-- A frame is live if it is the global one, or its push has not been undone.  A frame is known by
the number of operations up to its push, the push counted, and the global frame is number 0. -/
def Live (history : List Operation) (frame : Nat) : Prop :=
  frame = 0 ∨ ∃ before later, history = before ++ .push :: later ∧ frame = before.length + 1 ∧
    ¬ Undone later

/-- The live frame that was opened last. -/
def Innermost (history : List Operation) (frame : Nat) : Prop :=
  IsGreatest {frame | Live history frame} frame

variable {history later : List Operation} {operation : Operation} {frame above : Nat}
  {frames : List Nat}

theorem Undone.concat (h : Undone later) : Undone (later ++ [operation]) := by
  obtain ⟨between, hbalanced, hprefix⟩ := h
  exact ⟨between, hbalanced, hprefix.trans (List.prefix_append _ _)⟩

/-- An operation brings no frame to life but the one that it opens. -/
theorem Live.of_concat (h : Live (history ++ [operation]) frame) :
    Live history frame ∨ operation = .push ∧ frame = history.length + 1 := by
  obtain rfl | ⟨before, later, hsplit, rfl, hopen⟩ := h
  · exact .inl (.inl rfl)
  · obtain rfl | ⟨more, last, rfl⟩ := List.eq_nil_or_concat' later
    · obtain ⟨rfl, hpush⟩ := List.append_inj' hsplit rfl
      exact .inr ⟨List.singleton_inj.1 hpush, rfl⟩
    · rw [← List.cons_append, ← List.append_assoc] at hsplit
      obtain ⟨rfl, hlast⟩ := List.append_inj' hsplit rfl
      exact .inl (.inr ⟨before, more, rfl, rfl, fun hundone => hopen hundone.concat⟩)

theorem Live.le_length (h : Live history frame) : frame ≤ history.length := by
  obtain rfl | ⟨before, later, rfl, rfl, _⟩ := h
  · exact Nat.zero_le _
  · simp

/-! ### Open frames -/

/-- The frame was opened and stayed open, and so many frames were opened above it and did so too. -/
def Open (history : List Operation) (above frame : Nat) : Prop :=
  ∃ before later, history = before ++ .push :: later ∧ frame = before.length + 1 ∧
    later.count .push = later.count .pop + above ∧
    ∀ part, part <+: later → part.count .pop ≤ part.count .push

theorem Open.live (h : Open history above frame) : Live history frame := by
  obtain ⟨before, later, hsplit, hframe, _, hparts⟩ := h
  refine .inr ⟨before, later, hsplit, hframe, fun hundone => ?_⟩
  obtain ⟨between, ⟨hcount, _⟩, hprefix⟩ := hundone
  have hpart := hparts _ hprefix
  rw [List.count_append, List.count_append] at hpart
  simp at hpart
  omega

theorem open_push (history : List Operation) :
    Open (history ++ [.push]) 0 (history.length + 1) :=
  ⟨history, [], rfl, rfl, rfl, fun part hpart => by rw [List.prefix_nil.1 hpart]; rfl⟩

/-- What becomes of the frames above an open frame does not close it, as long as the frame is not
the innermost when there is a pop. -/
theorem Open.concat (h : Open history above frame) {left : Nat}
    (hleft : above + [operation].count .push = left + [operation].count .pop) :
    Open (history ++ [operation]) left frame := by
  obtain ⟨before, later, rfl, hframe, hcount, hparts⟩ := h
  refine ⟨before, later ++ [operation], by rw [List.append_assoc]; rfl, hframe, ?_, ?_⟩
  · rw [List.count_append, List.count_append]
    omega
  · intro part hpart
    obtain rfl | hpart := List.prefix_concat_iff.1 hpart
    · rw [List.count_append, List.count_append]
      omega
    · exact hparts part hpart

/-- A pop closes the innermost frame. -/
theorem Open.not_live_pop (h : Open history 0 frame) : ¬ Live (history ++ [.pop]) frame := by
  obtain ⟨before, later, rfl, hframe, hcount, hparts⟩ := h
  rintro (hzero | ⟨before', later', hsplit, hframe', hopen⟩)
  · omega
  · rw [List.append_assoc] at hsplit
    obtain ⟨_, hlater⟩ := List.append_inj hsplit (by omega)
    obtain rfl := (List.cons.inj hlater).2
    exact hopen ⟨later, ⟨hcount, hparts⟩, List.prefix_refl _⟩

/-! ### All live frames -/

/-- Frames one inside the other down to the global one, with so many above the first of them. -/
inductive Stack (history : List Operation) : Nat → List Nat → Prop where
  | globals (above : Nat) : Stack history above [0]
  | scope {above frame : Nat} {outer : List Nat} (hopen : Open history above frame)
      (hinside : ∀ other ∈ outer, other < frame) (houter : Stack history (above + 1) outer) :
      Stack history above (frame :: outer)

theorem Stack.live (h : Stack history above frames) : ∀ frame ∈ frames, Live history frame := by
  induction h with
  | globals above => exact fun frame hframe => .inl (List.mem_singleton.1 hframe)
  | scope hopen _ _ ih => exact List.forall_mem_cons.2 ⟨hopen.live, ih⟩

theorem Stack.concat (h : Stack history above frames) {left : Nat}
    (hleft : above + [operation].count .push = left + [operation].count .pop) :
    Stack (history ++ [operation]) left frames := by
  induction h generalizing left with
  | globals above => exact .globals left
  | scope hopen hinside _ ih => exact .scope (hopen.concat hleft) hinside (ih (by omega))

theorem Stack.sorted (h : Stack history above frames) : frames.Pairwise (· > ·) := by
  induction h with
  | globals above => exact List.pairwise_singleton _ _
  | scope _ hinside _ ih => exact List.pairwise_cons.2 ⟨hinside, ih⟩

/-- The live frames of a history, the innermost first. -/
structure Frames (history : List Operation) (frames : List Nat) : Prop where
  stack : Stack history 0 frames
  complete : ∀ frame, Live history frame → frame ∈ frames

theorem Frames.live_iff (h : Frames history frames) : Live history frame ↔ frame ∈ frames :=
  ⟨h.complete frame, h.stack.live frame⟩

/-- There are as many of them as are live. -/
theorem Frames.ncard_live (h : Frames history frames) :
    {frame | Live history frame}.ncard = frames.length := by
  have hset : {frame | Live history frame} = (frames.toFinset : Set Nat) := by
    ext frame
    simp [h.live_iff]
  rw [hset, Set.ncard_coe_finset, List.toFinset_card_of_nodup (h.stack.sorted.imp ne_of_gt)]

theorem Frames.innermost_iff {first : Nat} {outer : List Nat}
    (h : Frames history (first :: outer)) : Innermost history frame ↔ frame = first := by
  have hfirst : Innermost history first := by
    refine ⟨h.live_iff.2 List.mem_cons_self, fun other hother => ?_⟩
    obtain rfl | hmem := List.mem_cons.1 (h.live_iff.1 hother)
    · exact Nat.le_refl _
    · exact Nat.le_of_lt ((List.pairwise_cons.1 h.stack.sorted).1 other hmem)
  exact ⟨fun hframe => hframe.unique hfirst, fun heq => heq ▸ hfirst⟩

theorem frames_nil : Frames [] [0] := by
  refine ⟨.globals 0, fun frame hlive => ?_⟩
  obtain rfl | ⟨before, _, hsplit, _⟩ := hlive
  · exact List.mem_singleton_self 0
  · cases before <;> cases hsplit

theorem Frames.push (h : Frames history frames) :
    Frames (history ++ [.push]) ((history.length + 1) :: frames) := by
  refine ⟨.scope (open_push history) (fun frame hframe => ?_) (h.stack.concat rfl),
    fun frame hlive => ?_⟩
  · exact Nat.lt_succ_of_le (h.live_iff.2 hframe).le_length
  · obtain hlive | ⟨_, rfl⟩ := hlive.of_concat
    · exact List.mem_cons_of_mem _ (h.complete frame hlive)
    · exact List.mem_cons_self

/-- A pop closes the innermost frame if there is another one. -/
theorem Frames.pop {first second : Nat} {outer : List Nat}
    (h : Frames history (first :: second :: outer)) :
    Frames (history ++ [.pop]) (second :: outer) := by
  cases h.stack with
  | scope hopen _ houter =>
    refine ⟨houter.concat rfl, fun frame hlive => ?_⟩
    obtain hbefore | ⟨hpush, _⟩ := hlive.of_concat
    · refine (List.mem_cons.1 (h.complete frame hbefore)).resolve_left ?_
      rintro rfl
      exact hopen.not_live_pop hlive
    · cases hpush

/-- A pop does nothing if there is only the global frame. -/
theorem Frames.pop_globals (h : Frames history [frame]) : Frames (history ++ [.pop]) [frame] := by
  cases h.stack with
  | globals =>
    refine ⟨.globals 0, fun frame hlive => ?_⟩
    obtain hbefore | ⟨hpush, _⟩ := hlive.of_concat
    · exact h.complete frame hbefore
    · cases hpush
  | scope _ _ houter => cases houter

/-- No other operation opens or closes a frame. -/
theorem Frames.other (h : Frames history frames) (hpush : operation ≠ .push)
    (hpop : operation ≠ .pop) : Frames (history ++ [operation]) frames := by
  refine ⟨h.stack.concat ?_, fun frame hlive => ?_⟩
  · rw [List.count_singleton, List.count_singleton, if_neg (by simpa using hpush),
      if_neg (by simpa using hpop)]
  · obtain hbefore | ⟨hisPush, _⟩ := hlive.of_concat
    · exact h.complete frame hbefore
    · exact absurd hisPush hpush

end Lox.History
