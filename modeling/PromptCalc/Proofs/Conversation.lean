import PromptCalc.CommandLine
import PromptCalc.Proofs.Register
import PromptCalc.Proofs.LastAnswer
import PromptCalc.Proofs.ResultLines
import Mathlib

/-!
# Conversations

The results of a conversation are the answers of one session to the lines, up to the first `quit`.
A line takes over the last answer from the lines before it and nothing else, so lines that leave
this as it is can be left out. What comes after `quit` is not read.
-/
namespace PromptCalc

def Response.number? : Response → Option Float
  | .number x => some x
  | _ => Option.none

namespace Console

open Session

def call? (line : String) : Option Call :=
  match Request.ofLine line with
  | .help | .quit => none
  | .clear => some .clear
  | .prompt text => some (.evaluate text)

def calls (lines : List String) : List Call := lines.filterMap call?

def untilQuit (lines : List String) : List String :=
  lines.takeWhile fun line => Request.ofLine line ≠ .quit

/-- What the session answers to the lines before the first `quit`. -/
def values (s : Session) (lines : List String) : List Float :=
  (s.responses (calls (untilQuit lines))).filterMap Response.number?

def value? (s : Session) (line : String) : Option Float :=
  (call? line).bind fun c => (s.call c).1.number?

def next (s : Session) (line : String) : Session := s.run (calls [line])

/-- What `ans` stands for behind the lines: the answer to the latest one that has an answer, if the
answer was not cleared since, or else zero. -/
def StandsFor (before : List String) (x : Float) : Prop :=
  LastAnswered new (calls before) x ∨ (∀ y, ¬ LastAnswered new (calls before) y) ∧ x = 0

section Steps

variable {s s' : Session} {line : String} {lines before : List String}

theorem values_nil (s : Session) : values s [] = [] := rfl

theorem values_quit (h : Request.ofLine line = .quit) : values s (line :: lines) = [] := by
  rw [values, untilQuit, List.takeWhile_cons_of_neg (by simp [h])]
  rfl

theorem values_cons (h : Request.ofLine line ≠ .quit) :
    values s (line :: lines) = (value? s line).toList ++ values (next s line) lines := by
  have huntil : untilQuit (line :: lines) = line :: untilQuit lines := by
    rw [untilQuit, List.takeWhile_cons_of_pos (by simpa using h)]
    rfl
  rw [values, huntil, calls, value?, next, calls]
  cases hcall : call? line with
  | none =>
    rw [List.filterMap_cons_none hcall, List.filterMap_cons_none hcall]
    rfl
  | some c =>
    rw [List.filterMap_cons_some hcall, List.filterMap_cons_some hcall, responses, Option.bind_some]
    cases hresponse : (s.call c).1.number? with
    | none => exact List.filterMap_cons_none hresponse
    | some x => exact List.filterMap_cons_some hresponse

theorem run_calls_append (s : Session) (as bs : List String) :
    s.run (calls (as ++ bs)) = (s.run (calls as)).run (calls bs) := by
  rw [calls, List.filterMap_append, run_append]
  rfl

theorem run_calls_snoc (before : List String) (line : String) :
    new.run (calls (before ++ [line])) = next (new.run (calls before)) line :=
  run_calls_append ..

theorem next_prompt {text : String} (h : Request.ofLine line = .prompt text) :
    next s line = (s.evaluate text).2 := by
  have hcall : calls [line] = [.evaluate text] :=
    List.filterMap_cons_some (by rw [call?, h])
  rw [next, hcall]
  exact responseOf_snd ..

theorem value?_prompt {text : String} (h : Request.ofLine line = .prompt text) :
    value? s line = (s.evaluate text).1.toOption := by
  rw [value?, call?, h, Option.bind_some, call]
  rcases s.evaluate text with ⟨e | x, s'⟩ <;> rfl

theorem next_of_call?_eq_none (h : call? line = none) (s : Session) :
    value? s line = none ∧ next s line = s := by
  have hcalls : calls [line] = [] := List.filterMap_cons_none h
  rw [value?, next, h, hcalls]
  exact ⟨rfl, rfl⟩

theorem next_clear (h : Request.ofLine line = .clear) (s : Session) :
    value? s line = none ∧ next s line = s.clear := by
  have hcall : call? line = some .clear := by rw [call?, h]
  have hcalls : calls [line] = [.clear] := List.filterMap_cons_some hcall
  rw [value?, next, hcall, hcalls]
  exact ⟨rfl, rfl⟩

/-- What a line adds does not depend on anything in the session but the last answer. -/
theorem line_congr (h : s.answer = s'.answer) (line : String) :
    value? s line = value? s' line ∧ (next s line).answer = (next s' line).answer := by
  cases hline : Request.ofLine line with
  | prompt text =>
    rw [value?_prompt hline, value?_prompt hline, next_prompt hline, next_prompt hline,
      evaluate_congr h]
    exact ⟨rfl, rfl⟩
  | help | quit =>
    have hcall : call? line = none := by rw [call?, hline]
    obtain ⟨hvalue, hnext⟩ := next_of_call?_eq_none hcall s
    obtain ⟨hvalue', hnext'⟩ := next_of_call?_eq_none hcall s'
    rw [hvalue, hvalue', hnext, hnext']
    exact ⟨rfl, h⟩
  | clear =>
    obtain ⟨hvalue, hnext⟩ := next_clear hline s
    obtain ⟨hvalue', hnext'⟩ := next_clear hline s'
    rw [hvalue, hvalue', hnext, hnext']
    exact ⟨rfl, rfl⟩

theorem values_snoc (h : ∀ l ∈ lines, Request.ofLine l ≠ .quit)
    (hline : Request.ofLine line ≠ .quit) (s : Session) :
    values s (lines ++ [line]) =
      values s lines ++ (value? (s.run (calls lines)) line).toList := by
  induction lines generalizing s with
  | nil =>
    rw [List.nil_append, values_cons hline, values_nil, values_nil, List.append_nil,
      List.nil_append]
    rfl
  | cons l lines ih =>
    obtain ⟨hl, hlines⟩ := List.forall_mem_cons.mp h
    have hrun : s.run (calls (l :: lines)) = (next s l).run (calls lines) :=
      run_calls_append s [l] lines
    rw [List.cons_append, values_cons hl, values_cons hl, ih hlines, hrun, List.append_assoc]

theorem value?_of_standsFor {x : Float} (h : StandsFor before x) (line : String) :
    value? (new.run (calls before)) line = value? { new with answer := x } line := by
  have hanswer : (new.run (calls before)).answer = x := by
    rcases h with hlast | ⟨hnone, rfl⟩
    · exact answer_run_of_lastAnswered hlast
    · exact answer_run_of_not_lastAnswered .new hnone
  exact (line_congr hanswer line).1

end Steps

section Deletion

/-- Behind the lines before it the line is blank, a request for help or a prompt without an
answer. -/
def IsIdle (before : List String) (line : String) : Prop :=
  Text.trim line = "" ∨ Request.ofLine line = .help ∨
    ∃ text e, Request.ofLine line = .prompt text ∧
      ((new.run (calls before)).evaluate text).1 = .error e

/-- Behind the lines before them, some of the lines are kept, and only idle ones are not. -/
inductive Pruned : List String → List String → List String → Prop where
  | nil {before : List String} : Pruned before [] []
  | keep {before lines kept : List String} {line : String} :
      Pruned (before ++ [line]) lines kept → Pruned before (line :: lines) (line :: kept)
  | delete {before lines kept : List String} {line : String} : IsIdle before line →
      Pruned (before ++ [line]) lines kept → Pruned before (line :: lines) kept

variable {before lines kept : List String} {line : String} {s : Session}

theorem exists_error_of_blank (s : Session) : ∃ e, (s.evaluate "").1 = .error e := by
  rcases s.evaluate_cases "" with ⟨e, he, -⟩ | ⟨x, hx, -⟩
  · exact ⟨e, he⟩
  · obtain ⟨tree, htree, -⟩ := exists_parse_of_evaluate hx
    obtain ⟨inner, closing, command, opening, htokens, -⟩ := s.exists_encloses_of_parse htree
    have hnone : tokenize "" = [] := by
      rw [tokenize_eq_scan]
      exact Token.scan_nil 0
    cases hnone.symm.trans htokens

theorem ofLine_of_blank (h : Text.trim line = "") : Request.ofLine line = .prompt "" := by
  rw [Request.ofLine, h]
  decide +kernel

theorem IsIdle.adds_nothing (h : IsIdle before line) :
    Request.ofLine line ≠ .quit ∧ value? (new.run (calls before)) line = none ∧
      (next (new.run (calls before)) line).answer = (new.run (calls before)).answer := by
  have hprompt {text : String} {e : Failure} (hline : Request.ofLine line = .prompt text)
      (he : ((new.run (calls before)).evaluate text).1 = .error e) :
      Request.ofLine line ≠ .quit ∧ value? (new.run (calls before)) line = none ∧
        (next (new.run (calls before)) line).answer = (new.run (calls before)).answer := by
    refine ⟨by rw [hline]; exact nofun, by rw [value?_prompt hline, he]; rfl, ?_⟩
    have hanswer := (new.run (calls before)).answer_parse text
    rw [next_prompt hline]
    rcases (new.run (calls before)).evaluate_cases text with ⟨-, -, hsession⟩ | ⟨x, hx, -⟩
    · rw [hsession, hanswer]
    · cases he.symm.trans hx
  rcases h with hblank | hhelp | ⟨text, e, hline, he⟩
  · obtain ⟨e, he⟩ := exists_error_of_blank (new.run (calls before))
    exact hprompt (ofLine_of_blank hblank) he
  · have hcall : call? line = none := by rw [call?, hhelp]
    obtain ⟨hvalue, hnext⟩ := next_of_call?_eq_none hcall (new.run (calls before))
    exact ⟨by rw [hhelp]; exact nofun, hvalue, congrArg Session.answer hnext⟩
  · exact hprompt hline he

theorem Pruned.values_eq (h : Pruned before lines kept)
    (hs : s.answer = (new.run (calls before)).answer) :
    values s kept = values (new.run (calls before)) lines := by
  induction h generalizing s with
  | nil => rfl
  | @keep before lines kept line _ ih =>
    by_cases hquit : Request.ofLine line = .quit
    · rw [values_quit hquit, values_quit hquit]
    · obtain ⟨hvalue, hanswer⟩ := line_congr hs line
      rw [← run_calls_snoc] at hanswer
      rw [values_cons hquit, values_cons hquit, hvalue, ih hanswer, run_calls_snoc]
  | @delete before lines kept line hidle _ ih =>
    obtain ⟨hquit, hvalue, hanswer⟩ := hidle.adds_nothing
    rw [← run_calls_snoc] at hanswer
    rw [values_cons hquit, hvalue, ← run_calls_snoc, ih (hs.trans hanswer.symm)]
    rfl

end Deletion

section Output

variable {places : Nat} {s : Session} {line : String}

theorem converse_cons {t : Session} {line : Option String} {lines : List (Option String)}
    (h : (answer places s line).next = .ok t) :
    converse places s (line :: lines) =
      (marker ++ (answer places s line).output ++ (converse places t lines).1,
        (converse places t lines).2) := by
  rw [converse]
  dsimp only
  rw [h]

theorem converse_end {ending : Ending} {line : Option String} {lines : List (Option String)}
    (h : (answer places s line).next = .error ending) :
    converse places s (line :: lines) = (marker ++ (answer places s line).output, ending) := by
  rw [converse]
  dsimp only
  rw [h]

/-- A line quits, or its answer cannot be written, or the conversation goes on behind it and shows
the answer, if there is one. -/
theorem answer_cases (places : Nat) (s : Session) (line : String) :
    (Request.ofLine line = .quit ∧
      answer places s (some line) = ⟨farewell, none, .error .finished⟩) ∨
    (Request.ofLine line ≠ .quit ∧ (∃ x, value? s line = some x ∧ Number.rounded? places x = none) ∧
      (answer places s (some line)).output = "" ∧
      (answer places s (some line)).next = .error .tooManyPlaces) ∨
    (Request.ofLine line ≠ .quit ∧ (answer places s (some line)).next = .ok (next s line) ∧
      ∃ shown : Option String, (value? s line).map (Number.rounded? places) = shown.map some ∧
        ∀ cs, resultsIn ((answer places s (some line)).output.toList ++ cs) =
          (shown.map String.toList).toList ++ resultsIn cs) := by
  cases hline : Request.ofLine line with
  | quit => exact .inl ⟨rfl, by rw [answer, respond, hline]⟩
  | help =>
    have hcall : call? line = none := by rw [call?, hline]
    have hnone : resultsIn help.toList = [] := by decide +kernel
    obtain ⟨hvalue, hnext⟩ := next_of_call?_eq_none hcall s
    refine .inr (.inr ⟨nofun, ?_, none, congrArg _ hvalue, fun cs => ?_⟩)
    · rw [hnext, answer, respond, hline]
    · rw [answer, respond, hline]
      dsimp only
      rw [resultsIn_append (by decide +kernel), hnone]
      rfl
  | clear =>
    obtain ⟨hvalue, hnext⟩ := next_clear hline s
    refine .inr (.inr ⟨nofun, ?_, none, congrArg _ hvalue, fun cs => ?_⟩)
    · rw [hnext, answer, respond, hline]
    · rw [answer, respond, hline]
      rfl
  | prompt text =>
    right
    rw [value?_prompt hline, next_prompt hline, answer, respond, hline]
    dsimp only
    rcases s.evaluate text with ⟨e | x, s'⟩
    · exact .inr ⟨nofun, rfl, none, rfl, fun cs => rfl⟩
    · dsimp only
      cases hrounded : Number.rounded? places x with
      | none => exact .inl ⟨nofun, ⟨x, rfl, hrounded⟩, rfl, rfl⟩
      | some shown =>
        refine .inr ⟨nofun, rfl, some shown, congrArg some hrounded, fun cs => ?_⟩
        exact resultsIn_result (Number.newline_notMem_rounded hrounded) cs

/-- The output shows the answers up to the first `quit`, as far as they can be written. -/
theorem results_converse (places : Nat) (s : Session) (lines : List String) :
    resultsIn (converse places s (lines.map some)).1.toList =
      ((values s lines).filterMap (Number.rounded? places)).map String.toList ∧
    (converse places s (lines.map some)).2 =
      if places ≤ Number.maxPlaces ∨ values s lines = [] then .finished else .tooManyPlaces := by
  have hmarker : resultsIn marker.toList = [] := by decide +kernel
  have hfarewell : resultsIn (marker ++ farewell).toList = [] := by decide +kernel
  induction lines generalizing s with
  | nil =>
    rw [values_nil, if_pos (.inr rfl)]
    exact ⟨hmarker, rfl⟩
  | cons line lines ih =>
    rw [List.map_cons]
    rcases answer_cases places s line with
      ⟨hquit, hreply⟩ | ⟨hquit, ⟨x, hvalue, hrounded⟩, houtput, hnext⟩ |
        ⟨hquit, hnext, shown, hshown, houtput⟩
    · have hend : (answer places s (some line)).next = .error .finished := by rw [hreply]
      rw [converse_end hend, hreply, values_quit hquit, if_pos (.inr rfl)]
      exact ⟨hfarewell, rfl⟩
    · have hmany : ¬ places ≤ Number.maxPlaces := Number.rounded?_eq_none_iff.mp hrounded
      have hnone (xs : List Float) : xs.filterMap (Number.rounded? places) = [] :=
        List.filterMap_eq_nil_iff.mpr fun x _ => Number.rounded?_eq_none_iff.mpr hmany
      rw [converse_end hnext, houtput, hnone, values_cons hquit, hvalue, if_neg (by simp [hmany])]
      exact ⟨hmarker, rfl⟩
    · obtain ⟨hresults, hending⟩ := ih (next s line)
      rw [converse_cons hnext, values_cons hquit, List.filterMap_append, List.map_append,
        String.append_assoc, String.toList_append, resultsIn_marker, String.toList_append, houtput,
        hresults, hending]
      cases hvalue : value? s line <;> rw [hvalue] at hshown <;> cases shown <;>
        simp only [Option.map_none, Option.map_some, reduceCtorEq, Option.some.injEq] at hshown
      case none.none => exact ⟨rfl, rfl⟩
      case some.some x text =>
        have hplaces : places ≤ Number.maxPlaces := Number.le_maxPlaces_of_rounded? hshown
        rw [Option.toList_some, List.filterMap_cons_some hshown, if_pos (.inl hplaces),
          if_pos (.inl hplaces)]
        exact ⟨rfl, rfl⟩

theorem converse_quit {quit : String} (h : Request.ofLine quit = .quit) (places : Nat) (s : Session)
    (before after after' : List (Option String)) :
    converse places s (before ++ some quit :: after) =
      converse places s (before ++ some quit :: after') := by
  induction before generalizing s with
  | nil =>
    have hend : (answer places s (some quit)).next = .error .finished := by rw [answer, respond, h]
    rw [List.nil_append, List.nil_append, converse_end hend, converse_end hend]
  | cons line before ih =>
    rw [List.cons_append, List.cons_append]
    cases hnext : (answer places s line).next with
    | error ending => rw [converse_end hnext, converse_end hnext]
    | ok t => rw [converse_cons hnext, converse_cons hnext, ih]

end Output

end Console

namespace CommandLine

open Console

/-- The lines of an input. One that is not text is `none`. -/
def linesOf (input : ByteArray) : List (Option String) :=
  (Console.lines input.toList).map Console.decode

theorem run_converse {args : List String} {places : Nat}
    (hargs : invocation? args = some ⟨places, .converse⟩) (input : ByteArray) :
    run args input = .ended (greeting ++ (Console.converse places .new (linesOf input)).1)
      (Console.converse places .new (linesOf input)).2 := by
  rw [run, hargs]
  rfl

def Report.results (r : Report) : List String := (resultsIn r.output.toList).map String.ofList

variable {args : List String} {places : Nat} {input : ByteArray} {lines : List String}

theorem results_run (hargs : invocation? args = some ⟨places, .converse⟩)
    (hlines : linesOf input = lines.map some) :
    (run args input).results = (values .new lines).filterMap (Number.rounded? places) ∧
      (run args input).exit =
        if places ≤ Number.maxPlaces ∨ values .new lines = [] then 0 else 101 := by
  have hgreeting : resultsIn greeting.toList = [] := by decide +kernel
  have hline : greeting.toList.getLast? = some '\n' := by decide +kernel
  have htexts (texts : List String) : (texts.map String.toList).map String.ofList = texts := by
    simp [Function.comp_def]
  obtain ⟨hresults, hending⟩ := results_converse places .new lines
  rw [run_converse hargs, hlines, Report.results]
  simp only [Report.ended, String.toList_append, resultsIn_append hline, hgreeting, hending,
    List.nil_append, hresults, htexts, true_and]
  split <;> rfl

/-- The results of a conversation are the answers of one session to the lines before the first
`quit`, rounded to the given places, where `ans` stands for the answer to the latest line before
that has one, if none has cleared it since, or else for zero. Lines that are blank, ask for help or
have no answer can be left out, and nothing after the first `quit` is read. Only with too many
places no answer is shown, and the first one ends the conversation. -/
theorem run_converse_results (hargs : invocation? args = some ⟨places, .converse⟩)
    (hlines : linesOf input = lines.map some) :
    (places ≤ Number.maxPlaces ∨ values .new lines = [] →
      (run args input).results =
          (values .new lines).map (Number.written fun m => m.roundedText places) ∧
        (run args input).exit = 0) ∧
    (¬ (places ≤ Number.maxPlaces ∨ values .new lines = []) →
      (run args input).results = [] ∧ (run args input).exit = 101) ∧
    (∀ before line, (∀ l ∈ before ++ [line], Request.ofLine l ≠ .quit) → ∀ x, StandsFor before x →
      values .new (before ++ [line]) =
        values .new before ++ (value? { Session.new with answer := x } line).toList) ∧
    (∀ kept input', Pruned [] lines kept → linesOf input' = kept.map some →
      (run args input').results = (run args input).results) ∧
    (∀ before quit after, lines = before ++ quit :: after → Request.ofLine quit = .quit →
      ∀ input' after', linesOf input' = (before ++ [quit]).map some ++ after' →
        run args input' = run args input) := by
  obtain ⟨hresults, hexit⟩ := results_run hargs hlines
  refine ⟨fun h => ⟨?_, by rw [hexit, if_pos h]⟩, fun h => ⟨?_, by rw [hexit, if_neg h]⟩,
    fun before line hquit x hx => ?_, fun kept input' hkept hlines' => ?_,
    fun before quit after hsplit hquit input' after' hlines' => ?_⟩
  · rcases h with hplaces | hnone
    · have hrounded : Number.rounded? places =
          some ∘ Number.written fun m => m.roundedText places :=
        funext fun x => if_pos hplaces
      rw [hresults, hrounded, List.filterMap_eq_map]
    · rw [hresults, hnone]
      rfl
  · rw [hresults, List.filterMap_eq_nil_iff]
    exact fun x _ => Number.rounded?_eq_none_iff.mpr fun hplaces => h (.inl hplaces)
  · have hline := hquit line (List.mem_append_right _ List.mem_cons_self)
    rw [values_snoc (fun l hl => hquit l (List.mem_append_left _ hl)) hline,
      value?_of_standsFor hx]
  · have hvalues : values .new kept = values .new lines := hkept.values_eq rfl
    rw [(results_run hargs hlines').1, hresults, hvalues]
  · have hconverse := converse_quit hquit places .new (before.map some) after' (after.map some)
    rw [run_converse hargs, run_converse hargs, hlines, hlines', hsplit, List.map_append,
      List.map_append, List.map_cons, List.map_cons, List.map_nil, List.append_assoc,
      List.singleton_append, hconverse]

/-- A blank line and a request for help are left out, and `quit` is written in capitals. -/
theorem run_converse_results_of_quarter :
    let input := "calc '1/4'\nhelp\n \t\n calc 'ans*6'\r\nQUIT\ncalc '9'\n".toUTF8
    let kept := "calc '1/4'\n calc 'ans*6'\r\nQUIT\ncalc '9'\n".toUTF8
    (run [] input).results = ["0.25", "1.50"] ∧ (run [] input).exit = 0 ∧
      (run [] kept).results = (run [] input).results := by
  intro input kept
  have hargs : invocation? [] = some ⟨2, .converse⟩ := rfl
  have hlines : linesOf input =
      ["calc '1/4'", "help", " \t", " calc 'ans*6'\r", "QUIT", "calc '9'"].map some := by
    decide +kernel
  have hkept : linesOf kept = ["calc '1/4'", " calc 'ans*6'\r", "QUIT", "calc '9'"].map some := by
    decide +kernel
  have hpruned : Pruned []
      ["calc '1/4'", "help", " \t", " calc 'ans*6'\r", "QUIT", "calc '9'"]
      ["calc '1/4'", " calc 'ans*6'\r", "QUIT", "calc '9'"] :=
    .keep (.delete (.inr (.inl (by decide +kernel)))
      (.delete (.inl (by decide +kernel)) (.keep (.keep (.keep .nil)))))
  obtain ⟨hshown, -, -, hdeleted, -⟩ := run_converse_results hargs hlines
  obtain ⟨hresults, hexit⟩ := hshown (.inl (by decide))
  refine ⟨?_, hexit, hdeleted _ _ hpruned hkept⟩
  rw [hresults]
  decide +kernel

/-- With too many places an answer is not shown. -/
theorem exists_answer_not_shown :
    ∃ input, linesOf input = [some "calc '1'"] ∧
      invocation? ["-p", "65536"] = some ⟨65536, .converse⟩ ∧
      ((Session.new.evaluate "calc '1'").1.toOption.map Float.toBits) = some (1 : Float).toBits ∧
      (run ["-p", "65536"] input).results = [] ∧ (run ["-p", "65536"] input).exit = 101 :=
  ⟨"calc '1'\n".toUTF8, by decide +kernel, by decide +kernel, by decide +kernel, by decide +kernel,
    by decide +kernel⟩

end CommandLine

end PromptCalc
