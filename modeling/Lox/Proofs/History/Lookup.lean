import Lox.Proofs.Effects.Changes
import Lox.Proofs.History.Frames

/-!
# Look-up by history

What a name means, and its value, can be told from the operations that were made on an environment.
A name means the innermost live frame in which it was declared, which is where a definition of it
was made while that frame was the innermost.  Its value there is that of the operation that wrote to
it last: a definition, or an assignment made while the name meant that frame.

* `Declares` and `Meant`: the names of a frame, and the frame that a name means;
* `Writes` and `Latest`: the operations that give a name a value in a frame, and the last of them;
* `Mirrors`: an environment that holds what its history says, with a lemma for each operation;
* `lookup_by_history`: reading and assigning answer as the history says.
-/

namespace Lox.History

/-! ### What a history says -/

/-- A definition of the name was made while the frame was the innermost. -/
def Declares (history : List Operation) (frame : Nat) (name : String) : Prop :=
  ∃ before value, before ++ [.define name value] <+: history ∧ Innermost before frame

/-- The frame that a name means: the innermost of the live frames that declare it. -/
def Meant (history : List Operation) (name : String) (frame : Nat) : Prop :=
  IsGreatest {frame | Live history frame ∧ Declares history frame name} frame

/-- The operations that give a name a value in a frame, when made behind others. -/
inductive Writes (before : List Operation) (frame : Nat) : String → Operation → Value → Prop where
  | define {name : String} {value : Value} (h : Innermost before frame) :
      Writes before frame name (.define name value) value
  | assign {name : Token} {value : Value} (h : Meant before name.lexeme frame) :
      Writes before frame name.lexeme (.assign name value) value

/-- The value that the last of these operations gave. -/
def Latest (history : List Operation) (frame : Nat) (name : String) (value : Value) : Prop :=
  ∃ before operation, before ++ [operation] <+: history ∧
    Writes before frame name operation value ∧
    ∀ before' operation' value', before' ++ [operation'] <+: history →
      Writes before' frame name operation' value' → before'.length ≤ before.length

variable {history before : List Operation} {operation made : Operation} {frame : Nat}
  {frames : List Nat} {name : String} {value : Value}

theorem made_concat : before ++ [made] <+: history ++ [operation] ↔
    before ++ [made] <+: history ∨ before = history ∧ made = operation := by
  rw [List.prefix_concat_iff, or_comm]
  refine or_congr_right ⟨fun heq => ?_, fun ⟨hbefore, hmade⟩ => by rw [hbefore, hmade]⟩
  obtain ⟨hbefore, hmade⟩ := List.append_inj' heq rfl
  exact ⟨hbefore, List.singleton_inj.1 hmade⟩

theorem length_lt_of_made (h : before ++ [made] <+: history) : before.length < history.length := by
  have := h.length_le
  rwa [List.length_append] at this

theorem Writes.live (h : Writes before frame name operation value) : Live before frame := by
  cases h with
  | define h => exact h.1
  | assign h => exact h.1.1

theorem Writes.unique {name' : String} {value' : Value}
    (h : Writes before frame name operation value)
    (h' : Writes before frame name' operation value') : name' = name ∧ value' = value := by
  cases h <;> cases h' <;> exact ⟨rfl, rfl⟩

theorem declares_concat : Declares (history ++ [operation]) frame name ↔
    Declares history frame name ∨
      ∃ value, operation = .define name value ∧ Innermost history frame := by
  constructor
  · rintro ⟨before, value, hmade, hinnermost⟩
    obtain hmade | ⟨rfl, rfl⟩ := made_concat.1 hmade
    · exact .inl ⟨before, value, hmade, hinnermost⟩
    · exact .inr ⟨value, rfl, hinnermost⟩
  · rintro (⟨before, value, hmade, hinnermost⟩ | ⟨value, rfl, hinnermost⟩)
    · exact ⟨before, value, made_concat.2 (.inl hmade), hinnermost⟩
    · exact ⟨history, value, List.prefix_refl _, hinnermost⟩

/-- What writes to a name in a frame has it declared there. -/
theorem Writes.declares (h : Writes history frame name operation value) :
    Declares (history ++ [operation]) frame name := by
  cases h with
  | define h => exact declares_concat.2 (.inr ⟨_, rfl, h⟩)
  | assign h => exact declares_concat.2 (.inl h.1.2)

theorem latest_concat : Latest (history ++ [operation]) frame name value ↔
    Writes history frame name operation value ∨
      (∀ value, ¬ Writes history frame name operation value) ∧
        Latest history frame name value := by
  constructor
  · rintro ⟨before, made, hmade, hwrites, hlast⟩
    obtain hmade | ⟨rfl, rfl⟩ := made_concat.1 hmade
    · refine .inr ⟨fun other hother => ?_, before, made, hmade, hwrites, ?_⟩
      · have hle := hlast history operation other (List.prefix_refl _) hother
        exact absurd (length_lt_of_made hmade) (Nat.not_lt.2 hle)
      · exact fun before' made' value' h => hlast before' made' value' (made_concat.2 (.inl h))
    · exact .inl hwrites
  · rintro (hwrites | ⟨hquiet, before, made, hmade, hwrites, hlast⟩)
    · refine ⟨history, operation, List.prefix_refl _, hwrites, fun before' made' value' h _ => ?_⟩
      exact Nat.le_of_lt_succ (by simpa using length_lt_of_made h)
    · refine ⟨before, made, made_concat.2 (.inl hmade), hwrites, ?_⟩
      intro before' made' value' h hw
      obtain h | ⟨rfl, rfl⟩ := made_concat.1 h
      · exact hlast before' made' value' h hw
      · exact absurd hw (hquiet value')

/-! ### One frame -/

/-- A frame holds what a history says of it. -/
structure Holds (history : List Operation) (frame : Nat) (held : Frame) : Prop where
  bound (name : String) : Declares history frame name ↔ ∃ value, held.get? name = some value
  value (name : String) (value : Value) :
    held.get? name = some value ↔ Latest history frame name value

variable {held changed : Frame}

/-- A frame that is not open yet holds nothing. -/
theorem holds_nil (h : history.length ≤ frame) : Holds history frame [] := by
  have hnot {before : List Operation} {made : Operation} (hmade : before ++ [made] <+: history)
      (hlive : Live before frame) : False := by
    have hlt := length_lt_of_made hmade
    have hle := hlive.le_length
    omega
  refine ⟨fun name => ⟨?_, ?_⟩, fun name value => ⟨?_, ?_⟩⟩
  · rintro ⟨before, value, hmade, hinnermost⟩
    exact (hnot hmade hinnermost.1).elim
  · rintro ⟨value, hvalue⟩
    cases hvalue
  · exact nofun
  · rintro ⟨before, made, hmade, hwrites, _⟩
    exact (hnot hmade hwrites.live).elim

theorem Holds.quiet (h : Holds history frame held)
    (hquiet : ∀ name value, ¬ Writes history frame name operation value) :
    Holds (history ++ [operation]) frame held := by
  refine ⟨fun name => ?_, fun name value => ?_⟩
  · rw [declares_concat, ← h.bound name]
    refine or_iff_left ?_
    rintro ⟨value, rfl, hinnermost⟩
    exact hquiet name value (.define hinnermost)
  · rw [latest_concat, h.value name value]
    simp [hquiet name]

/-- A write changes one name. -/
theorem Holds.written (h : Holds history frame held)
    (hwrites : Writes history frame name operation value)
    (hget : ∀ other, changed.get? other = if name = other then some value else held.get? other) :
    Holds (history ++ [operation]) frame changed := by
  refine ⟨fun other => ?_, fun other new => ?_⟩
  · by_cases hname : name = other
    · subst hname
      exact iff_of_true hwrites.declares ⟨value, by simp [hget]⟩
    · rw [declares_concat, hget, if_neg hname, ← h.bound other]
      refine or_iff_left ?_
      rintro ⟨new, rfl, hinnermost⟩
      exact hname (hwrites.unique (.define hinnermost)).1.symm
  · rw [latest_concat, hget]
    by_cases hname : name = other
    · subst hname
      rw [if_pos rfl, Option.some_inj]
      constructor
      · rintro rfl
        exact .inl hwrites
      · rintro (hnew | ⟨hquiet, _⟩)
        · exact (hwrites.unique hnew).2.symm
        · exact absurd hwrites (hquiet value)
    · have hquiet (new : Value) : ¬ Writes history frame other operation new :=
        fun hnew => hname (hwrites.unique hnew).1.symm
      rw [if_neg hname, h.value other new]
      simp [hquiet]

/-! ### All frames -/

/-- The frames of an environment hold what a history says of frames with these numbers. -/
inductive Mirrors (history : List Operation) : List Nat → Environment → Prop where
  | globals {frame : Nat} {held : Frame} (h : Holds history frame held) :
      Mirrors history [frame] (.globals held)
  | scope {frame : Nat} {held : Frame} {frames : List Nat} {outer : Environment}
      (h : Holds history frame held) (houter : Mirrors history frames outer) :
      Mirrors history (frame :: frames) (.scope held outer)

variable {environment after : Environment}

theorem Mirrors.depth (h : Mirrors history frames environment) :
    environment.depth = frames.length := by
  induction h with
  | globals _ => rfl
  | scope _ _ ih => simp [Environment.depth, ih]

theorem Mirrors.quiet (h : Mirrors history frames environment)
    (hquiet : ∀ frame ∈ frames, ∀ name value, ¬ Writes history frame name operation value) :
    Mirrors (history ++ [operation]) frames environment := by
  induction h with
  | globals hholds => exact .globals (hholds.quiet (hquiet _ List.mem_cons_self))
  | scope hholds _ ih =>
    obtain ⟨hfirst, houter⟩ := List.forall_mem_cons.1 hquiet
    exact .scope (hholds.quiet hfirst) (ih houter)

/-- The greatest number with a property in a descending list is the first that has it. -/
theorem isGreatest_cons {P : Nat → Prop} {first number : Nat} {numbers : List Nat}
    (hsorted : (first :: numbers).Pairwise (· > ·)) :
    IsGreatest {n | n ∈ first :: numbers ∧ P n} number ↔
      P first ∧ number = first ∨ ¬ P first ∧ IsGreatest {n | n ∈ numbers ∧ P n} number := by
  have hinside := (List.pairwise_cons.1 hsorted).1
  by_cases hfirst : P first
  · have hgreatest : IsGreatest {n | n ∈ first :: numbers ∧ P n} first := by
      refine ⟨⟨List.mem_cons_self, hfirst⟩, fun n hn => ?_⟩
      obtain rfl | hmem := List.mem_cons.1 hn.1
      · exact Nat.le_refl _
      · exact Nat.le_of_lt (hinside n hmem)
    simp only [hfirst, not_true, false_and, or_false, true_and]
    exact ⟨fun h => h.unique hgreatest, fun h => h ▸ hgreatest⟩
  · have hset : {n | n ∈ first :: numbers ∧ P n} = {n | n ∈ numbers ∧ P n} := by
      refine Set.ext fun n => and_congr_left fun hn => ?_
      rw [List.mem_cons]
      refine or_iff_right ?_
      rintro rfl
      exact hfirst hn
    rw [hset]
    simp only [hfirst, false_and, not_false_eq_true, true_and, false_or]

theorem Frames.meant_iff (h : Frames history frames) : Meant history name frame ↔
    IsGreatest {frame | frame ∈ frames ∧ Declares history frame name} frame := by
  simp only [Meant, h.live_iff]

theorem Mirrors.bound_iff (h : Mirrors history frames environment) :
    (∃ value, environment.get? name = some value) ↔
      ∃ frame ∈ frames, Declares history frame name := by
  induction h with
  | globals hholds => simp [Environment.get?, hholds.bound name]
  | @scope frame held frames outer hholds _ ih =>
    rw [List.exists_mem_cons_iff, hholds.bound name, ← ih]
    cases hget : held.get? name <;> simp [Environment.get?, hget]

/-- Looking a name up gives the latest value in the frame that the name means. -/
theorem Mirrors.get?_iff (h : Mirrors history frames environment)
    (hsorted : frames.Pairwise (· > ·)) :
    environment.get? name = some value ↔
      ∃ frame, IsGreatest {frame | frame ∈ frames ∧ Declares history frame name} frame ∧
        Latest history frame name value := by
  induction h with
  | @globals frame held hholds =>
    simp only [isGreatest_cons hsorted, Environment.get?, hholds.value name value]
    constructor
    · intro hlatest
      have hbound := (hholds.bound name).2 ⟨value, (hholds.value name value).2 hlatest⟩
      exact ⟨frame, .inl ⟨hbound, rfl⟩, hlatest⟩
    · rintro ⟨_, ⟨_, rfl⟩ | ⟨_, hnone⟩, hlatest⟩
      · exact hlatest
      · exact absurd hnone.1.1 List.not_mem_nil
  | @scope frame held frames outer hholds _ ih =>
    have ih := ih (List.pairwise_cons.1 hsorted).2
    simp only [isGreatest_cons hsorted]
    cases hget : held.get? name with
    | none =>
      have hunbound : ¬ Declares history frame name := by simp [hholds.bound name, hget]
      simp only [Environment.get?, hget, ih, hunbound, false_and, not_false_eq_true, true_and,
        false_or]
    | some held =>
      have hbound : Declares history frame name := (hholds.bound name).2 ⟨held, hget⟩
      simp only [Environment.get?, hget, hbound, true_and, not_true_eq_false, false_and, or_false,
        exists_eq_left, ← hholds.value name value]

/-! ### What the operations do -/

theorem mirrors_nil : Mirrors [] [0] .empty := .globals (holds_nil (Nat.le_refl 0))

theorem Mirrors.push (h : Mirrors history frames environment) :
    Mirrors (history ++ [.push]) ((history.length + 1) :: frames) environment.push :=
  .scope (holds_nil (by simp)) (h.quiet fun _ _ _ _ => nofun)

theorem Mirrors.define (h : Mirrors history frames environment) (hframes : Frames history frames) :
    Mirrors (history ++ [.define name value]) frames (environment.define name value) := by
  cases h with
  | globals hholds =>
    exact .globals
      (hholds.written (.define (hframes.innermost_iff.2 rfl)) (Frame.get?_insert _ _ · _))
  | @scope frame held frames outer hholds houter =>
    refine .scope
      (hholds.written (.define (hframes.innermost_iff.2 rfl)) (Frame.get?_insert _ _ · _))
      (houter.quiet ?_)
    rintro other hother _ _ ⟨hinnermost⟩
    rw [hframes.innermost_iff.1 hinnermost] at hother
    exact Nat.lt_irrefl _ ((List.pairwise_cons.1 hframes.stack.sorted).1 _ hother)

/-- An assignment writes to the frame that the name means, and to no other. -/
theorem Mirrors.assign {name : Token} (h : Mirrors history frames environment)
    (hsorted : frames.Pairwise (· > ·)) (hmeant : Meant history name.lexeme frame)
    (hframe : IsGreatest {frame | frame ∈ frames ∧ Declares history frame name.lexeme} frame)
    (hreplace : environment.replace? name.lexeme value = some after) :
    Mirrors (history ++ [.assign name value]) frames after := by
  have hquiet {other : Nat} (hother : other ≠ frame) (name' : String) (value' : Value) :
      ¬ Writes history other name' (.assign name value) value' := by
    intro hwrites
    cases hwrites with
    | assign hmeans => exact hother (hmeans.unique hmeant)
  induction h generalizing after with
  | @globals first held hholds =>
    obtain rfl := List.mem_singleton.1 hframe.1.1
    obtain ⟨changed, hchanged, rfl⟩ := Option.map_eq_some_iff.1 hreplace
    exact .globals (hholds.written (.assign hmeant) (Frame.get?_replace? hchanged))
  | @scope first held frames outer hholds houter ih =>
    obtain ⟨hinside, hrest⟩ := List.pairwise_cons.1 hsorted
    obtain ⟨hbound, rfl⟩ | ⟨hunbound, hframe⟩ := (isGreatest_cons hsorted).1 hframe
    · obtain ⟨old, hold⟩ := (hholds.bound _).1 hbound
      cases hchanged : held.replace? name.lexeme value with
      | none =>
        rw [Frame.replace?_eq_none.1 hchanged] at hold
        cases hold
      | some changed =>
        simp only [Environment.replace?, hchanged, Option.some.injEq] at hreplace
        subst hreplace
        exact .scope (hholds.written (.assign hmeant) (Frame.get?_replace? hchanged))
          (houter.quiet fun other hother => hquiet (Nat.ne_of_lt (hinside other hother)))
    · have hget : held.get? name.lexeme = none := by
        simpa [hholds.bound, ← Option.ne_none_iff_exists'] using hunbound
      simp only [Environment.replace?, Frame.replace?_eq_none.2 hget, Option.map_eq_some_iff]
        at hreplace
      obtain ⟨changed, hchanged, rfl⟩ := hreplace
      exact .scope (hholds.quiet (hquiet (Nat.ne_of_gt (hinside frame hframe.1.1))))
        (ih hrest hframe hchanged)

/-- An assignment gives the name that the search finds another value, or leaves all as it is. -/
theorem assignTo_apply (name : Token) (value : Value) (environment : Environment) :
    assignTo name value environment =
      match environment.replace? name.lexeme value with
      | some after => (.ok value, after)
      | none => (.error ⟨name, .undefinedVariable⟩, environment) := by
  show (liftM (environment.assign name value) >>= fun after =>
    set after >>= fun _ => pure value : Evaluation Value) environment = _
  rw [Environment.assign]
  cases environment.replace? name.lexeme value <;> rfl

/-- A name can be given another value exactly if some frame declares it. -/
theorem Mirrors.replace?_isSome (h : Mirrors history frames environment) (value : Value) :
    (environment.replace? name value).isSome ↔ ∃ frame ∈ frames, Declares history frame name := by
  rw [← h.bound_iff, Option.isSome_iff_ne_none, ne_eq, Environment.replace?_eq_none,
    ← ne_eq, Option.ne_none_iff_exists']

/-- If a name is declared, it means some frame. -/
theorem Mirrors.exists_meant (h : Mirrors history frames environment)
    (hsorted : frames.Pairwise (· > ·)) (hbound : ∃ frame ∈ frames, Declares history frame name) :
    ∃ frame, IsGreatest {frame | frame ∈ frames ∧ Declares history frame name} frame := by
  obtain ⟨value, hvalue⟩ := h.bound_iff.2 hbound
  obtain ⟨frame, hframe, _⟩ := (h.get?_iff hsorted).1 hvalue
  exact ⟨frame, hframe⟩

/-- **The environment holds what its history says.** -/
theorem exists_mirrored (history : List Operation) :
    ∃ frames, Frames history frames ∧ Mirrors history frames (environmentAfter history) := by
  induction history using List.reverseRecOn with
  | nil => exact ⟨[0], frames_nil, mirrors_nil⟩
  | append_singleton history operation ih =>
    obtain ⟨frames, hframes, hmirrors⟩ := ih
    have hsorted := hframes.stack.sorted
    rw [environmentAfter_concat]
    cases operation with
    | push => exact ⟨_, hframes.push, hmirrors.push⟩
    | pop =>
      generalize environmentAfter history = environment at hmirrors
      cases hmirrors with
      | globals hholds => exact ⟨_, hframes.pop_globals, .globals (hholds.quiet fun _ _ => nofun)⟩
      | scope _ houter =>
        have hpopped := houter.quiet fun _ _ _ _ (h : Writes history _ _ .pop _) => nomatch h
        cases houter with
        | globals => exact ⟨_, hframes.pop, hpopped⟩
        | scope => exact ⟨_, hframes.pop, hpopped⟩
    | define name value => exact ⟨_, hframes.other nofun nofun, hmirrors.define hframes⟩
    | assign name value =>
      refine ⟨_, hframes.other nofun nofun, ?_⟩
      rw [Operation.perform, assignTo_apply]
      cases hreplace : (environmentAfter history).replace? name.lexeme value with
      | none =>
        have hunbound := mt (hmirrors.replace?_isSome value).2 (by rw [hreplace]; nofun)
        refine hmirrors.quiet fun frame hframe _ _ hwrites => ?_
        cases hwrites with
        | assign hmeant => exact hunbound ⟨frame, hframe, hmeant.1.2⟩
      | some after =>
        have hbound := (hmirrors.replace?_isSome value).1 (by rw [hreplace]; rfl)
        obtain ⟨frame, hframe⟩ := hmirrors.exists_meant hsorted hbound
        exact hmirrors.assign hsorted (hframes.meant_iff.2 hframe) hframe hreplace
    | read name => exact ⟨_, hframes.other nofun nofun, hmirrors.quiet fun _ _ _ _ => nofun⟩

theorem read_eq_ok {name : Token} :
    environment.read name = .ok value ↔ environment.get? name.lexeme = some value := by
  cases h : environment.get? name.lexeme <;> simp [Environment.read, h]

/-- **Look-up by history.**  After any operations, in any order and number, there are as many frames
as are live.  A name can be read exactly if a live frame declares it, and then has the latest value
in the frame that it means.  An assignment succeeds exactly if the name can be read, answers with
the value that was assigned, and leaves every frame with the names it has.  Otherwise both report
the name as an undefined variable and change nothing. -/
theorem lookup_by_history (history : List Operation) :
    (environmentAfter history).depth = {frame | Live history frame}.ncard ∧
      ∀ name : Token,
        ((∃ value, (environmentAfter history).read name = .ok value) ↔
          ∃ frame, Live history frame ∧ Declares history frame name.lexeme) ∧
        (∀ value, (environmentAfter history).read name = .ok value ↔
          ∃ frame, Meant history name.lexeme frame ∧ Latest history frame name.lexeme value) ∧
        ∀ value,
          ((assignTo name value (environmentAfter history)).1 = .ok value ↔
            ∃ frame, Live history frame ∧ Declares history frame name.lexeme) ∧
          SameNames (environmentAfter history) (assignTo name value (environmentAfter history)).2 ∧
          ((¬ ∃ frame, Live history frame ∧ Declares history frame name.lexeme) ↔
            ∃ e : RuntimeError, e.token = name ∧
              e.message = "Undefined variable '" ++ name.lexeme ++ "'." ∧
              (environmentAfter history).read name = .error e ∧
              assignTo name value (environmentAfter history) =
                (.error e, environmentAfter history)) := by
  obtain ⟨frames, hframes, hmirrors⟩ := exists_mirrored history
  have hsorted := hframes.stack.sorted
  generalize environmentAfter history = environment at hmirrors
  refine ⟨by rw [hmirrors.depth, hframes.ncard_live], fun name => ?_⟩
  simp only [hframes.live_iff, hframes.meant_iff, ← hmirrors.get?_iff hsorted, ← hmirrors.bound_iff]
  refine ⟨exists_congr fun _ => read_eq_ok, fun _ => read_eq_ok, fun value => ?_⟩
  rw [assignTo_apply]
  cases hreplace : environment.replace? name.lexeme value with
  | none =>
    have hget := Environment.replace?_eq_none.1 hreplace
    have hread : environment.read name = .error ⟨name, .undefinedVariable⟩ := by
      rw [Environment.read, hget]
    have hunbound : ¬ ∃ value, environment.get? name.lexeme = some value := by simp [hget]
    refine ⟨iff_of_false nofun hunbound, ⟨rfl, fun _ _ => rfl⟩, iff_of_true hunbound ?_⟩
    exact ⟨⟨name, .undefinedVariable⟩, rfl, rfl, hread, rfl⟩
  | some after =>
    have hget := mt Environment.replace?_eq_none.2 (by rw [hreplace]; nofun : _ ≠ none)
    have hbound := Option.ne_none_iff_exists'.1 hget
    have hchanges : Changes [name.lexeme] [] environment after :=
      .replace? (List.mem_singleton_self name.lexeme) hreplace
    refine ⟨iff_of_true rfl hbound, hchanges.sameNames, iff_of_false (not_not_intro hbound) ?_⟩
    rintro ⟨e, _, _, hread, _⟩
    obtain ⟨old, hold⟩ := hbound
    rw [read_eq_ok.2 hold] at hread
    cases hread

end Lox.History
