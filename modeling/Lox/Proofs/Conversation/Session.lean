import Lox.CommandLine
import Lox.Proofs.Conversation.Lines
import Lox.Proofs.Diagnosis.ErrorLines
import Lox.Proofs.Output.Unseen

/-!
# A conversation is a session

Without arguments the program reads lines and runs each of them.  What it leaves on its two streams
is put together from what a session of the same lines leaves: the output of each line behind an
invitation, and the messages of each line in order.

* `session_cons`, `session_of_answer` and `session_eraseIdx`: the sources of a session one by one,
  and what becomes of the others when one that is not understood is left out;
* `transcript` and `asLines`: what stands on the two streams;
* `Sink.Beside` and `Alongside`: a console beside the machine of a session;
* `Console.turn_bytesOf` and `Console.turn_of_noText`: what a line that is a text leads to, and one
  that is none;
* `answer_alongside` and `converse_alongside`: one line of a conversation, and all of it;
* `conversation_is_session`: the main result.
-/

namespace Lox

/-! ### Sessions -/

theorem session_cons {rounds : Nat} {source : String} {rest : List String} {machine last : Machine}
    {answers : List Answer} (h : session rounds (source :: rest) machine = some (answers, last)) :
    ∃ report after others, run rounds source machine = some (report, after) ∧
      session rounds rest after = some (others, last) ∧
      answers = ⟨report, writtenSince machine.out after.out⟩ :: others := by
  rw [session] at h
  cases hrun : run rounds source machine with
  | none =>
    rw [hrun] at h
    cases h
  | some answer =>
    rw [hrun] at h
    obtain ⟨⟨others, last'⟩, hrest, hanswers⟩ := Option.map_eq_some_iff.1 h
    cases hanswers
    exact ⟨answer.1, answer.2, others, rfl, hrest, rfl⟩

/-- Each answer of a session is the report of one of its sources. -/
theorem session_of_answer {rounds : Nat} {sources : List String} {machine last : Machine}
    {answers : List Answer} (h : session rounds sources machine = some (answers, last)) :
    ∀ answer ∈ answers, ∃ source ∈ sources, ∃ before after,
      run rounds source before = some (answer.report, after) := by
  induction sources generalizing machine answers with
  | nil =>
    cases h
    exact fun _ h => absurd h List.not_mem_nil
  | cons source rest ih =>
    obtain ⟨report, after, others, hrun, hrest, rfl⟩ := session_cons h
    refine List.forall_mem_cons.2 ⟨⟨source, List.mem_cons_self, machine, after, hrun⟩, ?_⟩
    intro answer hanswer
    obtain ⟨source, hsource, found⟩ := ih hrest answer hanswer
    exact ⟨source, List.mem_cons_of_mem _ hsource, found⟩

/-- A source with a syntax error is not run. -/
theorem run_of_syntaxError {rounds : Nat} {source : String} {machine after : Machine}
    {report : Report} (h : run rounds source machine = some (report, after))
    (herror : report.syntaxErrors ≠ []) : report.runtimeErrors = [] ∧ after = machine := by
  cases hstatements : statementsOf source with
  | error errors =>
    simp only [run, hstatements, Option.some.injEq, Prod.mk.injEq] at h
    obtain ⟨rfl, rfl⟩ := h
    exact ⟨rfl, rfl⟩
  | ok statements =>
    rw [run_of_ok hstatements] at h
    obtain ⟨_, _, hreport⟩ := Option.map_eq_some_iff.1 h
    cases hreport
    exact absurd rfl herror

theorem writtenSince_self (sink : Sink) : writtenSince sink sink = ByteArray.empty :=
  ByteArray.extract_eq_empty_iff.2 (Nat.min_le_left _ _)

/-- A source with a syntax error writes nothing, and without it the session is the same. -/
theorem session_eraseIdx {rounds : Nat} {sources : List String} {machine last : Machine}
    {answers : List Answer} (h : session rounds sources machine = some (answers, last)) {i : Nat}
    {answer : Answer} (hi : answers[i]? = some answer) (herror : answer.report.syntaxErrors ≠ []) :
    answer.report.runtimeErrors = [] ∧ answer.output = ByteArray.empty ∧
      session rounds (sources.eraseIdx i) machine = some (answers.eraseIdx i, last) := by
  induction sources generalizing machine answers i with
  | nil =>
    cases h
    cases hi
  | cons source rest ih =>
    obtain ⟨report, after, others, hrun, hrest, rfl⟩ := session_cons h
    cases i with
    | zero =>
      cases hi
      obtain ⟨hruntime, rfl⟩ := run_of_syntaxError hrun herror
      exact ⟨hruntime, writtenSince_self _, hrest⟩
    | succ i =>
      obtain ⟨hruntime, houtput, hothers⟩ := ih hrest hi
      refine ⟨hruntime, houtput, ?_⟩
      rw [List.eraseIdx_cons_succ, List.eraseIdx_cons_succ, session, hrun]
      show Option.map _ (session rounds (rest.eraseIdx i) after) = _
      rw [hothers]
      rfl

/-! ### Two streams -/

/-- The invitation to type a line. -/
def invitation : ByteArray := "> ".toUTF8

/-- What a conversation writes: each output behind an invitation, and one more invitation. -/
def transcript : List ByteArray → ByteArray
  | [] => invitation
  | output :: rest => invitation ++ output ++ transcript rest

/-- Messages, each with the end of its line. -/
def asLines (messages : List String) : String := String.join (messages.map (· ++ "\n"))

/-- The messages of a report, the syntax errors first. -/
def Report.messages (report : Report) : List String :=
  report.syntaxErrors.map SyntaxError.display ++ report.runtimeErrors.map RuntimeError.display

theorem asLines_append (messages more : List String) :
    asLines (messages ++ more) = asLines messages ++ asLines more := by
  rw [asLines, List.map_append, String.join_append]
  rfl

theorem foldl_complain (messages : List String) (console : Console) :
    messages.foldl Console.complain console =
      { console with errors := console.errors ++ asLines messages } := by
  induction messages generalizing console with
  | nil => simp [asLines]
  | cons message rest ih =>
    rw [List.foldl_cons, ih, asLines, asLines, List.map_cons, String.join_cons]
    simp only [Console.complain, String.append_assoc]

theorem tell_eq (console : Console) (report : Report) :
    console.tell report = { console with errors := console.errors ++ asLines report.messages } :=
  foldl_complain report.messages console

/-! ### A console beside a machine -/

/-- Two sinks without a limit, to which the same was written behind what they already held. -/
structure Sink.Beside (held held' : ByteArray) (s t : Sink) : Prop where
  unlimited : s.capacity = none
  unlimited' : t.capacity = none
  written : ∃ more, s.written = held ++ more ∧ t.written = held' ++ more

theorem beside_stable (held held' : ByteArray) : Sink.Stable (Sink.Beside held held') where
  write bytes s t h := by
    obtain ⟨hs, ht, more, hmore, hmore'⟩ := h
    rw [Sink.write_unlimited hs, Sink.write_unlimited ht]
    refine ⟨hs, ht, more ++ bytes, ?_, ?_⟩
    · rw [hmore, ByteArray.append_assoc]
    · rw [hmore', ByteArray.append_assoc]
  flush _ _ h := h

theorem prompt_out {console : Console} (h : console.machine.out.capacity = none) :
    console.prompt.machine.out =
      { console.machine.out with written := console.machine.out.written ++ invitation } :=
  Sink.write_unlimited h invitation

/-- A console with the variables of a machine.  Both take whatever is written. -/
structure Alongside (console : Console) (machine : Machine) : Prop where
  environment : console.machine.environment = machine.environment
  unlimited : console.machine.out.capacity = none
  unlimited' : machine.out.capacity = none

theorem writtenSince_of_append {before after : Sink} {more : ByteArray}
    (h : after.written = before.written ++ more) : writtenSince before after = more := by
  rw [writtenSince, Sink.size, Sink.size, h]
  exact ByteArray.extract_append_eq_right rfl ByteArray.size_append

/-- **One line of a conversation.**  It is run as in a session, behind an invitation. -/
theorem answer_alongside {rounds : Nat} {source : String} {console : Console}
    {machine after : Machine} {report : Report} (h : Alongside console machine)
    (hrun : run rounds source machine = some (report, after)) :
    ∃ next : Console, console.prompt.answer rounds source = some (report, next) ∧
      Alongside next after ∧
      next.machine.out.written =
        console.machine.out.written ++ (invitation ++ writtenSince machine.out after.out) ∧
      next.errors = console.errors ++ asLines report.messages := by
  have before : SameVariables (Sink.Beside (console.machine.out.written ++ invitation)
      machine.out.written) console.prompt.machine machine := by
    refine ⟨h.environment, ?_⟩
    rw [prompt_out h.unlimited]
    exact ⟨h.unlimited, h.unlimited', ByteArray.empty, ByteArray.append_empty.symm,
      ByteArray.append_empty.symm⟩
  have ends := unseen_run (beside_stable _ _) rounds source before
  rw [hrun] at ends
  generalize hleft : run rounds source console.prompt.machine = left at ends
  cases ends with
  | @some found _ same =>
    obtain ⟨report', after'⟩ := found
    obtain ⟨rfl, henvironment, hunlimited, hunlimited', more, hmore, hmore'⟩ := same
    have hanswer : console.prompt.answer rounds source =
        some (report', { console.prompt with machine := after' }.tell report') := by
      rw [Console.answer, hleft]
      rfl
    rw [tell_eq] at hanswer
    refine ⟨_, hanswer, ⟨henvironment, hunlimited, hunlimited'⟩, ?_, rfl⟩
    rw [writtenSince_of_append hmore', ← ByteArray.append_assoc]
    exact hmore

/-- A line that is a text is run, and the next line meets what it left. -/
theorem Console.turn_bytesOf (console : Console) (rounds : Nat) (text : String) :
    console.turn rounds (bytesOf text) =
      (console.answer rounds text).map fun (_, after) => .next after := by
  rw [Console.turn, decodeLine_eq_some.2 rfl]

/-- A line that is no text is the last. -/
theorem Console.turn_of_noText (console : Console) {line : List UInt8}
    (h : ∀ text, line ≠ bytesOf text) (rounds : Nat) :
    console.turn rounds line = some (.last .unreadableInput
      (console.complain "Error reading input: stream did not contain valid UTF-8")) := by
  have hnone : decodeLine line = none := Option.eq_none_iff_forall_ne_some.2 fun text htext =>
    h text (decodeLine_eq_some.1 htext)
  have hmessage : "Error reading input: " ++ ReadFailure.notUtf8.message =
      "Error reading input: stream did not contain valid UTF-8" := by decide
  rw [Console.turn, hnone, ← hmessage]

/-- What a conversation says at its end: nothing, unless there is a line that is no text. -/
def farewell (unread : List (List UInt8)) : List String :=
  if unread = [] then [] else ["Error reading input: stream did not contain valid UTF-8"]

/-- How a conversation ends. -/
def farewellExit (unread : List (List UInt8)) : Exit :=
  if unread = [] then .success else .unreadableInput

/-- **All lines of a conversation**, one after another. -/
theorem converse_alongside {rounds : Nat} {sources : List String} {unread : List (List UInt8)}
    (stops : ∀ line ∈ unread.head?, ∀ text, line ≠ bytesOf text) {console : Console}
    {machine last : Machine} {answers : List Answer} (h : Alongside console machine)
    (ends : session rounds sources machine = some (answers, last)) :
    ∃ final : Console, converse rounds (sources.map bytesOf ++ unread) console =
        some (farewellExit unread, final) ∧
      final.machine.environment = last.environment ∧
      final.machine.out.written =
        console.machine.out.written ++ transcript (answers.map Answer.output) ∧
      final.errors = console.errors ++
        asLines (answers.flatMap (fun answer => answer.report.messages) ++ farewell unread) := by
  induction sources generalizing console machine answers with
  | nil =>
    cases ends
    have hwritten : console.prompt.machine.out.written =
        console.machine.out.written ++ invitation := by
      rw [prompt_out h.unlimited]
    cases unread with
    | nil => exact ⟨console.prompt, rfl, h.environment, hwritten, String.append_empty.symm⟩
    | cons line more =>
      have hturn := console.prompt.turn_of_noText (stops line rfl) rounds
      rw [List.map_nil, List.nil_append, converse, hturn]
      exact ⟨_, rfl, h.environment, hwritten, String.append_assoc⟩
  | cons source rest ih =>
    obtain ⟨report, after, others, hrun, hrest, rfl⟩ := session_cons ends
    obtain ⟨next, hanswer, hnext, hwritten, herrors⟩ := answer_alongside h hrun
    obtain ⟨final, hfinal, henvironment, hwritten', herrors'⟩ := ih hnext hrest
    refine ⟨final, ?_, henvironment, ?_, ?_⟩
    · have hturn : console.prompt.turn rounds (bytesOf source) = some (.next next) := by
        rw [Console.turn_bytesOf, hanswer]
        rfl
      rw [List.map_cons, List.cons_append, converse, hturn]
      exact hfinal
    · rw [hwritten', hwritten, List.map_cons, transcript]
      simp only [ByteArray.append_assoc]
    · rw [herrors', herrors, List.flatMap_cons, List.append_assoc,
        asLines_append report.messages, String.append_assoc]

/-! ### The main result -/

/-- **A conversation is a session of its lines.**  Every input is read as some texts, up to its end
or to a line that is no text.  If the session of these texts comes to its end, so does the program
when it is started without arguments.  It leaves the variables of the session.  On standard output
stands what each text wrote, behind an invitation, and one more invitation.  On standard error stand
the messages of each text in order, its syntax errors before its runtime errors, and all of them are
about line 1; a line that is no text is complained about at the end, with the status 74.  A text
with a syntax error writes nothing, and without it everything else is as it was. -/
theorem conversation_is_session (input : List UInt8) :
    (∃ sources unread, Reads input sources unread) ∧
      ∀ sources unread, Reads input sources unread → ∀ rounds answers last,
        session rounds sources {} = some (answers, last) →
        ∀ files : String → Except ReadFailure ByteArray,
          ∃ exit console, commandLine rounds [] files input = some (exit, console) ∧
            exit.code = (if unread = [] then 0 else 74) ∧
            console.machine.environment = last.environment ∧
            console.machine.out.written = transcript (answers.map Answer.output) ∧
            console.errors =
              asLines (answers.flatMap (fun answer => answer.report.messages) ++
                (if unread = [] then []
                else ["Error reading input: stream did not contain valid UTF-8"])) ∧
            (∀ answer ∈ answers, (∀ e ∈ answer.report.syntaxErrors, e.line = 1) ∧
              ∀ e ∈ answer.report.runtimeErrors, e.token.line = 1) ∧
            ∀ i answer, answers[i]? = some answer → answer.report.syntaxErrors ≠ [] →
              answer.report.runtimeErrors = [] ∧ answer.output = ByteArray.empty ∧
                session rounds (sources.eraseIdx i) {} = some (answers.eraseIdx i, last) := by
  refine ⟨exists_reads input, ?_⟩
  intro sources unread reads rounds answers last ends files
  have start : Alongside {} {} := ⟨rfl, rfl, rfl⟩
  obtain ⟨final, hconverse, henvironment, hwritten, herrors⟩ :=
    converse_alongside reads.stops start ends
  have hlines : inputLines input = sources.map bytesOf ++ unread := cutInto_iff.1 reads.cut
  refine ⟨farewellExit unread, final, ?_, ?_, henvironment, ?_, ?_, ?_, ?_⟩
  · show converse rounds (inputLines input) {} = _
    rw [hlines, hconverse]
  · unfold farewellExit
    split <;> rfl
  · rw [hwritten]
    exact ByteArray.empty_append
  · rw [herrors]
    exact String.empty_append
  · intro answer hanswer
    obtain ⟨source, hsource, before, after, hrun⟩ := session_of_answer ends answer hanswer
    have oneLine := reads.newline_notMem source hsource
    obtain ⟨hsyntaxErrors, hruntimeErrors⟩ := report_onLines hrun
    exact ⟨fun e he => (hsyntaxErrors e he).eq_one oneLine,
      fun e he => (hruntimeErrors e he).eq_one oneLine⟩
  · intro i answer hi herror
    exact session_eraseIdx ends hi herror

theorem statementsOf_printNil : statementsOf "print nil;" = .ok [.print (.literal .nil)] := by
  have scanned : scan "print nil;" =
      ⟨[⟨.keyword .print, "print", none, 1⟩, ⟨.keyword .nil, "nil", none, 1⟩,
        ⟨.symbol .semicolon, ";", none, 1⟩, ⟨.eof, "", none, 1⟩], []⟩ := by decide +kernel
  exact statementsOf_of_scan scanned rfl

/-- A line that is run, one with a syntax error, and one that is no text. -/
theorem conversation_is_session_brokenOff :
    let input :=
      bytesOf "print nil;" ++ [carriageReturn, lineFeed] ++ bytesOf ";" ++ [lineFeed, 255]
    Reads input ["print nil;", ";"] [[255]] ∧
      ∃ answers last, session 0 ["print nil;", ";"] {} = some (answers, last) ∧
        ∃ exit console,
          commandLine 0 [] (fun _ => .error .notFound) input = some (exit, console) ∧
            exit.code = 74 ∧ console.machine.out.written = "> nil\n> > ".toUTF8 ∧
            console.errors = "[line 1] Error at ';': Expect expression.\n" ++
              "Error reading input: stream did not contain valid UTF-8\n" := by
  intro input
  have noText : ∀ text, [255] ≠ bytesOf text := fun text h => by
    have hnone : decodeLine [255] = none := by decide
    rw [decodeLine_eq_some.2 h] at hnone
    cases hnone
  have reads : Reads input ["print nil;", ";"] [[255]] := by
    refine ⟨cutInto_iff.2 (by decide), ?_⟩
    rintro _ ⟨⟩
    exact noText
  have first : run 0 "print nil;" {} = some ({}, { out := { written := "nil\n".toUTF8 } }) := by
    rw [run_of_ok statementsOf_printNil]
    rfl
  have second : ∀ machine, run 0 ";" machine =
      some ({ syntaxErrors := [⟨1, .lexeme ";", .expectedExpression⟩] }, machine) := fun _ => rfl
  have ends : session 0 ["print nil;", ";"] {} =
      some ([⟨{}, "nil\n".toUTF8⟩,
        ⟨{ syntaxErrors := [⟨1, .lexeme ";", .expectedExpression⟩] }, .empty⟩],
        { out := { written := "nil\n".toUTF8 } }) := by
    rw [session, first]
    dsimp only
    rw [session, second]
    rfl
  obtain ⟨exit, console, hends, hcode, _, hwritten, herrors, _⟩ :=
    (conversation_is_session input).2 _ _ reads 0 _ _ ends fun _ => .error .notFound
  refine ⟨reads, _, _, ends, exit, console, hends, hcode, ?_, ?_⟩
  · rw [hwritten]
    rfl
  · rw [herrors]
    rfl

end Lox
