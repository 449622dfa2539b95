import Lox.Proofs.Output.Unseen

/-!
# Sinks that stop taking output

A sink that takes some bytes and no more changes nothing but how much of the output there is.  What
it holds is at each point the beginning of what a sink without a limit holds, however the limit
falls, and the program does not see it.

* `Sink.Narrowed`: a sink with a limit beside one without;
* `narrowed_stable`: what is written to both keeps them so;
* `Sessions` and `Batches`: sources and programs that come to an end one after another;
* `failing_sink_unseen`: the main result.
-/

namespace Lox

/-! ### The beginning of the output -/

/-- A sink that takes so many bytes in all, and one that takes everything, when the same was written
to both. -/
structure Sink.Narrowed (limit : Nat) (s t : Sink) : Prop where
  capacity : s.capacity = some limit
  unlimited : t.capacity = none
  written : s.written = t.written.extract 0 limit

theorem extract_of_min_eq {bytes : ByteArray} {n m : Nat}
    (h : min n bytes.size = min m bytes.size) :
    bytes.extract 0 n = bytes.extract 0 m := by
  apply ByteArray.ext
  rw [ByteArray.data_extract, ByteArray.data_extract, Array.extract_eq_extract_right]
  simpa using h

/-- **Writing to both.**  What is left of the limit is what the sink takes. -/
theorem narrowed_write {limit : Nat} {s t : Sink} (h : s.Narrowed limit t) (bytes : ByteArray) :
    (s.write bytes).2.Narrowed limit (t.write bytes).2 := by
  refine ⟨h.capacity, h.unlimited, ?_⟩
  have hsize : s.written.size = min limit t.written.size := by
    rw [h.written, ByteArray.size_extract, Nat.sub_zero]
  have hroom : s.room bytes.size = min bytes.size (limit - s.written.size) := by
    simp only [Sink.room, h.capacity]
  have htaken : bytes.extract 0 (s.room bytes.size) = bytes.extract 0 (limit - t.written.size) := by
    apply extract_of_min_eq
    rw [hroom, hsize]
    omega
  rw [Sink.write_unlimited h.unlimited]
  show s.written ++ bytes.extract 0 (s.room bytes.size) = (t.written ++ bytes).extract 0 limit
  rw [htaken, ByteArray.extract_append, Nat.zero_sub, h.written]

theorem narrowed_stable (limit : Nat) : Sink.Stable (Sink.Narrowed limit) where
  write bytes _ _ h := narrowed_write h bytes
  flush _ _ h := h

/-! ### Sessions and batches -/

/-- A source of a session as one of several steps. -/
def answering (rounds : Nat) (source : String) (machine : Machine) : Option (Answer × Machine) :=
  (run rounds source machine).map fun (report, after) =>
    (⟨report, writtenSince machine.out after.out⟩, after)

theorem session_eq_inTurn (rounds : Nat) (sources : List String) (machine : Machine) :
    session rounds sources machine = inTurn (answering rounds) sources machine := by
  induction sources generalizing machine with
  | nil => rfl
  | cons source rest ih =>
    rw [session, inTurn, answering]
    cases run rounds source machine with
    | none => rfl
    | some answer =>
      show Option.map _ (session rounds rest answer.2) = Option.map _ (inTurn _ rest answer.2)
      rw [ih]

/-- Sources run one after another come to an end, in whatever number of rounds. -/
def Sessions (sources : List String) (machine : Machine) (answers : List Answer)
    (last : Machine) : Prop :=
  ∃ rounds, session rounds sources machine = some (answers, last)

/-- Programs of any trees, run one after another, come to an end. -/
def Batches (batches : List (List Stmt)) (machine : Machine) (errors : List (List RuntimeError))
    (last : Machine) : Prop :=
  ∃ rounds, inTurn (interpret rounds) batches machine = some (errors, last)

theorem session_of_le {n m : Nat} (h : n ≤ m) {sources : List String} {machine : Machine}
    {ends : List Answer × Machine} (hends : session n sources machine = some ends) :
    session m sources machine = some ends := by
  rw [session_eq_inTurn] at hends ⊢
  refine inTurn_mono (fun source before answer hanswer => ?_) hends
  obtain ⟨found, hfound, hanswer⟩ := Option.map_eq_some_iff.1 hanswer
  rw [answering, run_of_le h hfound]
  exact congrArg some hanswer

theorem batches_of_le {n m : Nat} (h : n ≤ m) {batches : List (List Stmt)} {machine : Machine}
    {ends : List (List RuntimeError) × Machine}
    (hends : inTurn (interpret n) batches machine = some ends) :
    inTurn (interpret m) batches machine = some ends :=
  inTurn_mono (fun _ _ _ hanswer => interpret_of_le h hanswer) hends

/-- If two things end alike within each number of rounds, and more rounds change no end, then they
end alike in whatever numbers of rounds. -/
theorem ends_of_alike {α β : Type} {Q : α → β → Prop} {M : Machine → Machine → Prop}
    {left : Nat → Option (α × Machine)} {right : Nat → Option (β × Machine)}
    (alike : ∀ rounds, EndsAlike Q M (left rounds) (right rounds))
    (hleft : ∀ n m ends, n ≤ m → left n = some ends → left m = some ends)
    (hright : ∀ n m ends, n ≤ m → right n = some ends → right m = some ends) :
    ((∃ a last rounds, left rounds = some (a, last)) ↔
        ∃ b last rounds, right rounds = some (b, last)) ∧
      ∀ a last b last', (∃ rounds, left rounds = some (a, last)) →
        (∃ rounds, right rounds = some (b, last')) → Q a b ∧ M last last' := by
  refine ⟨⟨?_, ?_⟩, ?_⟩
  · intro h
    obtain ⟨a, last, rounds, hends⟩ := h
    have both := alike rounds
    rw [hends] at both
    generalize hother : right rounds = other at both
    cases both with
    | some _ => exact ⟨_, _, rounds, hother⟩
  · intro h
    obtain ⟨b, last, rounds, hends⟩ := h
    have both := alike rounds
    rw [hends] at both
    generalize hother : left rounds = other at both
    cases both with
    | some _ => exact ⟨_, _, rounds, hother⟩
  · intro a last b last' h h'
    obtain ⟨n, hn⟩ := h
    obtain ⟨m, hm⟩ := h'
    have both := alike (max n m)
    rw [hleft n _ _ (Nat.le_max_left n m) hn, hright m _ _ (Nat.le_max_right n m) hm] at both
    cases both with
    | some both => exact both

/-! ### A failing sink -/

theorem reports_eq {answers answers' : List Answer}
    (h : List.Forall₂ (fun a a' => a.report = a'.report) answers answers') :
    answers.map Answer.report = answers'.map Answer.report := by
  rwa [← List.forall₂_eq_eq_eq, List.forall₂_map_left_iff, List.forall₂_map_right_iff]

theorem unseen_session {R : Sink → Sink → Prop} (h : Sink.Stable R) (rounds : Nat)
    (sources : List String) {s t : Machine} (before : SameVariables R s t) :
    EndsAlike (List.Forall₂ fun a a' => a.report = a'.report) (SameVariables R)
      (session rounds sources s) (session rounds sources t) := by
  rw [session_eq_inTurn, session_eq_inTurn]
  refine inTurn_alike (fun source s t before => ?_) sources s t before
  exact optionRel_map (unseen_run h rounds source before) fun _ _ same => same

theorem unseen_batches {R : Sink → Sink → Prop} (h : Sink.Stable R) (rounds : Nat)
    (batches : List (List Stmt)) {s t : Machine} (before : SameVariables R s t) :
    EndsAlike Eq (SameVariables R) (inTurn (interpret rounds) batches s)
      (inTurn (interpret rounds) batches t) := by
  have ends := inTurn_alike (fun statements _ _ => unseen_interpret h rounds statements) batches s t
    before
  rwa [List.forall₂_eq_eq_eq] at ends

/-- **A sink that fails is not seen.**  Take the same variables with a sink that takes some number
of bytes and no more, whether or not it can be flushed, and with one that never fails.  A session of
sources comes to an end with both or with neither.  If it does, the report of each source is the
same, the variables are the same at the end, and the one sink holds as many of the first bytes that
the other holds as it takes.  The same is true of programs of any trees, run one after another. -/
theorem failing_sink_unseen (environment : Environment) (limit : Nat) (flushes : Bool) :
    let failing : Machine := { environment, out := { capacity := some limit, flushes } }
    let unlimited : Machine := { environment }
    (∀ sources : List String,
      ((∃ answers last, Sessions sources failing answers last) ↔
          ∃ answers last, Sessions sources unlimited answers last) ∧
        ∀ answers last answers' last', Sessions sources failing answers last →
          Sessions sources unlimited answers' last' →
          answers.map Answer.report = answers'.map Answer.report ∧
            last.environment = last'.environment ∧
            last.out.written = last'.out.written.extract 0 limit) ∧
    ∀ batches : List (List Stmt),
      ((∃ errors last, Batches batches failing errors last) ↔
          ∃ errors last, Batches batches unlimited errors last) ∧
        ∀ errors last errors' last', Batches batches failing errors last →
          Batches batches unlimited errors' last' →
          errors = errors' ∧ last.environment = last'.environment ∧
            last.out.written = last'.out.written.extract 0 limit := by
  intro failing unlimited
  have hempty : ByteArray.empty = ByteArray.empty.extract 0 limit :=
    (ByteArray.extract_eq_empty_iff.2 (Nat.min_le_right _ _)).symm
  have before : SameVariables (Sink.Narrowed limit) failing unlimited := ⟨rfl, rfl, rfl, hempty⟩
  have stable := narrowed_stable limit
  refine ⟨fun sources => ?_, fun batches => ?_⟩
  · obtain ⟨halts, same⟩ := ends_of_alike
      (fun rounds => unseen_session stable rounds sources before)
      (fun _ _ _ hle => session_of_le hle) (fun _ _ _ hle => session_of_le hle)
    refine ⟨halts, fun answers last answers' last' h h' => ?_⟩
    obtain ⟨hreports, henvironment, hout⟩ := same answers last answers' last' h h'
    exact ⟨reports_eq hreports, henvironment, hout.written⟩
  · obtain ⟨halts, same⟩ := ends_of_alike
      (fun rounds => unseen_batches stable rounds batches before)
      (fun _ _ _ hle => batches_of_le hle) (fun _ _ _ hle => batches_of_le hle)
    refine ⟨halts, fun errors last errors' last' h h' => ?_⟩
    obtain ⟨herrors, henvironment, hout⟩ := same errors last errors' last' h h'
    exact ⟨herrors, henvironment, hout.written⟩

theorem statementsOf_printTrue :
    statementsOf "print true;" = .ok [.print (.literal (.bool true))] := by
  have scanned : scan "print true;" =
      ⟨[⟨.keyword .print, "print", none, 1⟩, ⟨.keyword .true, "true", none, 1⟩,
        ⟨.symbol .semicolon, ";", none, 1⟩, ⟨.eof, "", none, 1⟩], []⟩ := by decide +kernel
  exact statementsOf_of_scan scanned rfl

theorem statementsOf_negateNil :
    statementsOf "-nil;" =
      .ok [.expression (.unary ⟨.symbol .minus, "-", none, 1⟩ (.literal .nil))] := by
  have scanned : scan "-nil;" =
      ⟨[⟨.symbol .minus, "-", none, 1⟩, ⟨.keyword .nil, "nil", none, 1⟩,
        ⟨.symbol .semicolon, ";", none, 1⟩, ⟨.eof, "", none, 1⟩], []⟩ := by decide +kernel
  exact statementsOf_of_scan scanned rfl

/-- The limit falls inside the value that is printed first, and what fails later is still told. -/
theorem failing_sink_unseen_inside_value :
    let sources := ["print true;", "-nil;"]
    let reports : List Report :=
      [{}, { runtimeErrors := [⟨⟨.symbol .minus, "-", none, 1⟩, .operandNotNumber⟩] }]
    ∃ answers last answers' last',
      Sessions sources { out := { capacity := some 2, flushes := false } } answers last ∧
        Sessions sources {} answers' last' ∧
        answers.map Answer.report = reports ∧ answers'.map Answer.report = reports ∧
        last'.out.written = "true\n".toUTF8 ∧ last.out.written = "tr".toUTF8 := by
  intro sources reports
  have first : run 0 "print true;" {} =
      some ({}, { out := { written := "true\n".toUTF8 } }) := by
    rw [run_of_ok statementsOf_printTrue]
    rfl
  have second : run 0 "-nil;" { out := { written := "true\n".toUTF8 } } =
      some (reports[1], { out := { written := "true\n".toUTF8 } }) := by
    rw [run_of_ok statementsOf_negateNil]
    rfl
  have ends : session 0 sources {} = some ([⟨reports[0], "true\n".toUTF8⟩, ⟨reports[1], .empty⟩],
      { out := { written := "true\n".toUTF8 } }) := by
    rw [session, first]
    dsimp only
    rw [session, second]
    rfl
  obtain ⟨halts, same⟩ := (failing_sink_unseen .empty 2 false).1 sources
  obtain ⟨answers, last, limited⟩ := halts.2 ⟨_, _, 0, ends⟩
  obtain ⟨hreports, _, hwritten⟩ := same answers last _ _ limited ⟨0, ends⟩
  refine ⟨answers, last, _, _, limited, ⟨0, ends⟩, hreports, rfl, rfl, ?_⟩
  rw [hwritten]
  rfl

end Lox
