import PromptCalc.Proofs.ParallelReading
import PromptCalc.Proofs.PromptFaults
import PromptCalc.Proofs.Safety
import PromptCalc.Proofs.Verdicts

/-!
# Words and layout

What comes of a prompt depends on the words of its text, that is on the kinds and literals of its
tokens. The blanks around them show only in the places that a failure or a tree points at, and the
last answer shows only in the leaves that were read from `ans`.
-/
namespace PromptCalc

/-- Both tokens are the same word, and there are as many tokens before the one in its text as before
the other. -/
def Paired (text text' : String) (t u : Token) : Prop :=
  u.word = t.word ∧ ∃ i : Nat, (tokenize text)[i]? = some t ∧ (tokenize text')[i]? = some u

def SameWords (text text' : String) : Prop :=
  (tokenize text).map Token.word = (tokenize text').map Token.word

/-- The places of a pair of tokens, the empty ones in front of the closing quotes, or the ends of
the texts. -/
inductive SamePlace (text text' : String) : Span → Span → Prop where
  | token {t u : Token} : Paired text text' t u → SamePlace text text' t.span u.span
  | closing {inner inner' : List Token} {closing closing' : Token} : Encloses text inner closing →
      Encloses text' inner' closing' →
      SamePlace text text' (.empty closing.span.start) (.empty closing'.span.start)
  | finish : SamePlace text text' (.empty text.utf8ByteSize) (.empty text'.utf8ByteSize)

/-- Faults of one kind, for one reason, at corresponding places. -/
inductive Fault.Alike (place : Span → Span → Prop) : Fault → Fault → Prop where
  | prompt {a b : Span} : place a b → Alike place (.prompt a) (.prompt b)
  | openingQuote {a b : Span} : place a b → Alike place (.openingQuote a) (.openingQuote b)
  | closingQuote {a b : Span} : place a b → Alike place (.closingQuote a) (.closingQuote b)
  | equation {a b : Span} (reason : Reason) : place a b →
      Alike place (.equation ⟨reason, a⟩) (.equation ⟨reason, b⟩)
  | zeroDivision {a b : Span} : place a b →
      Alike place (.zeroDivision (some a)) (.zeroDivision (some b))

structure Failure.Alike (text text' : String) (e f : Failure) : Prop where
  source : e.source = text
  source' : f.source = text'
  fault : e.fault.Alike (SamePlace text text') f.fault

variable {text text' : String} {t u : Token} {ts us inner rest : List Token} {closing : Token}

section Pairs

theorem Paired.kind_eq (h : Paired text text' t u) : u.kind = t.kind := congrArg Prod.fst h.1

theorem SameWords.paired (h : SameWords text text') :
    List.Forall₂ (Paired text text') (tokenize text) (tokenize text') := by
  have hlength : (tokenize text).length = (tokenize text').length := by
    simpa using congrArg List.length h
  refine List.forall₂_iff_get.mpr ⟨hlength, fun i hi hi' => ⟨?_, i, by simp, by simp⟩⟩
  have hword : ((tokenize text).map Token.word)[i]? = ((tokenize text').map Token.word)[i]? := by
    rw [h]
  simpa [hi, hi'] using hword.symm

theorem Paired.eq (h : Paired text text t u) : t = u := by
  obtain ⟨-, i, ht, hu⟩ := h
  exact Option.some.inj (ht.symm.trans hu)

theorem Encloses.unique {inner' : List Token} {closing' : Token} (h : Encloses text inner closing)
    (h' : Encloses text inner' closing') : inner = inner' ∧ closing = closing' :=
  Envelope.complete.inj ((encloses_iff.mp h).symm.trans (encloses_iff.mp h'))

theorem SamePlace.eq {a b : Span} (h : SamePlace text text a b) : a = b := by
  cases h with
  | token h => rw [h.eq]
  | closing h h' => rw [(h.unique h').2]
  | finish => rfl

theorem Fault.Alike.eq {e f : Fault} (h : e.Alike (SamePlace text text) f) : e = f := by
  cases h with
  | prompt h | openingQuote h | closingQuote h | equation _ h | zeroDivision h => rw [h.eq]

theorem Failure.Alike.eq {e f : Failure} (h : e.Alike text text f) : e = f := by
  obtain ⟨fault, source⟩ := e
  obtain ⟨fault', source'⟩ := f
  obtain ⟨rfl, rfl, hfault⟩ := h
  have hsame : fault = fault' := hfault.eq
  rw [hsame]

theorem Expr.Alike.eq {v w : Float} {e f : Expr} (h : e.Alike (· = ·) v w f)
    (hnone : ∀ t ∈ e.tokens, t.kind ≠ .answer) : e = f := by
  induction h with
  | number x h => rw [h]
  | answer h hkind => exact absurd hkind (hnone _ List.mem_cons_self)
  | unary h _ _ ih => rw [h, ih fun t ht => hnone t (List.mem_append_right _ ht)]
  | binary h _ _ ihl ihr =>
    rw [h, ihl fun t ht => hnone t (List.mem_append_left _ ht),
      ihr fun t ht => hnone t (List.mem_append_right _ (List.mem_append_right _ ht))]

end Pairs

section Verdicts

theorem exists_append_of_forall₂ {α β : Type} {R : α → β → Prop} {as bs : List α} {cs : List β}
    (h : List.Forall₂ R (as ++ bs) cs) :
    ∃ as' bs', cs = as' ++ bs' ∧ List.Forall₂ R as as' ∧ List.Forall₂ R bs bs' := by
  induction as generalizing cs with
  | nil => exact ⟨[], cs, rfl, .nil, h⟩
  | cons a as ih =>
    cases h with
    | cons hhead hrest =>
      obtain ⟨as', bs', rfl, has, hbs⟩ := ih hrest
      exact ⟨_ :: as', bs', rfl, .cons hhead has, hbs⟩

theorem kind_ne_of_forall₂ (h : List.Forall₂ (Paired text text') ts us) {kind : TokenKind}
    (hts : ∀ t ∈ ts, t.kind ≠ kind) : ∀ u ∈ us, u.kind ≠ kind := by
  induction h with
  | nil => exact hts
  | cons htoken _ ih =>
    obtain ⟨ht, hts⟩ := List.forall_mem_cons.mp hts
    exact List.forall_mem_cons.mpr ⟨htoken.kind_eq ▸ ht, ih hts⟩

theorem fault?_paired (h : List.Forall₂ (Paired text text') ts us) :
    Option.Rel (Paired text text') (Nesting.fault? ts) (Nesting.fault? us) :=
  Nesting.faultAfter_paired (fun _ _ => Paired.kind_eq) none .nil h

theorem Quoted.paired (h : Quoted ts inner closing rest)
    (hts : List.Forall₂ (Paired text text') ts us) :
    ∃ inner' closing' rest', Quoted us inner' closing' rest' ∧
      List.Forall₂ (Paired text text') inner inner' ∧
      List.Forall₂ (Paired text text') rest rest' := by
  obtain ⟨command, opening, rfl, hcommand, hopening, hclosing, hinner⟩ := h
  obtain ⟨command', _, hcommand', hbehind, rfl⟩ := List.forall₂_cons_left_iff.mp hts
  obtain ⟨opening', _, hopening', hinside, rfl⟩ := List.forall₂_cons_left_iff.mp hbehind
  obtain ⟨inner', _, rfl, hpairs, hend⟩ := exists_append_of_forall₂ hinside
  obtain ⟨closing', rest', hclosing', hrest, rfl⟩ := List.forall₂_cons_left_iff.mp hend
  exact ⟨inner', closing', rest', ⟨command', opening', rfl, hcommand'.kind_eq.trans hcommand,
    hopening'.kind_eq.trans hopening, hclosing'.kind_eq.trans hclosing,
    kind_ne_of_forall₂ hpairs hinner⟩, hpairs, hrest⟩

theorem Verdict.alike {result : Except Failure Unit} (h : Verdict text ts result)
    (hts : List.Forall₂ (Paired text text') ts us) :
    ∃ result', Verdict text' us result' ∧
      Matched (Failure.Alike text text') (· = ·) result result' := by
  cases h with
  | empty =>
    obtain rfl := List.forall₂_nil_left_iff.mp hts
    exact ⟨_, .empty, .error ⟨rfl, rfl, .prompt .finish⟩⟩
  | noCommand hfound =>
    obtain ⟨_, _, h, -, rfl⟩ := List.forall₂_cons_left_iff.mp hts
    exact ⟨_, .noCommand (h.kind_eq ▸ hfound), .error ⟨rfl, rfl, .prompt (.token h)⟩⟩
  | commandAlone hcommand =>
    obtain ⟨_, _, h, hbehind, rfl⟩ := List.forall₂_cons_left_iff.mp hts
    obtain rfl := List.forall₂_nil_left_iff.mp hbehind
    exact ⟨_, .commandAlone (h.kind_eq.trans hcommand), .error ⟨rfl, rfl, .prompt (.token h)⟩⟩
  | noOpening hcommand hfound =>
    obtain ⟨_, _, h, hbehind, rfl⟩ := List.forall₂_cons_left_iff.mp hts
    obtain ⟨_, _, h', -, rfl⟩ := List.forall₂_cons_left_iff.mp hbehind
    exact ⟨_, .noOpening (h.kind_eq.trans hcommand) (h'.kind_eq ▸ hfound),
      .error ⟨rfl, rfl, .openingQuote (.token h')⟩⟩
  | noClosing hcommand hopening hnone =>
    obtain ⟨_, _, h, hbehind, rfl⟩ := List.forall₂_cons_left_iff.mp hts
    obtain ⟨_, _, h', hinside, rfl⟩ := List.forall₂_cons_left_iff.mp hbehind
    exact ⟨_, .noClosing (h.kind_eq.trans hcommand) (h'.kind_eq.trans hopening)
      (kind_ne_of_forall₂ hinside hnone), .error ⟨rfl, rfl, .closingQuote (.token h')⟩⟩
  | trailing hquoted =>
    obtain ⟨_, _, _, hquoted', -, hrest⟩ := hquoted.paired hts
    obtain ⟨_, _, h, -, rfl⟩ := List.forall₂_cons_left_iff.mp hrest
    exact ⟨_, .trailing hquoted', .error ⟨rfl, rfl, .equation _ (.token h)⟩⟩
  | unbalanced hquoted hfault =>
    obtain ⟨inner', _, _, hquoted', hpairs, hrest⟩ := hquoted.paired hts
    obtain rfl := List.forall₂_nil_left_iff.mp hrest
    have hcheck := fault?_paired hpairs
    rw [hfault] at hcheck
    generalize hfault' : Nesting.fault? inner' = found at hcheck
    cases hcheck with
    | some h => exact ⟨_, .unbalanced hquoted' hfault', .error ⟨rfl, rfl, .equation _ (.token h)⟩⟩
  | balanced hquoted hfault =>
    obtain ⟨inner', _, _, hquoted', hpairs, hrest⟩ := hquoted.paired hts
    obtain rfl := List.forall₂_nil_left_iff.mp hrest
    have hcheck := fault?_paired hpairs
    rw [hfault] at hcheck
    generalize hfault' : Nesting.fault? inner' = found at hcheck
    cases hcheck with
    | none => exact ⟨_, .balanced hquoted' hfault', .ok rfl⟩

theorem Verdict.encloses_of_ok (h : Verdict text (tokenize text) (.ok ())) :
    ∃ inner closing, Encloses text inner closing ∧ Nesting.fault? inner = none := by
  generalize hts : tokenize text = ts at h
  cases h with
  | balanced hquoted hfault => exact ⟨_, _, hts ▸ hquoted, hfault⟩

end Verdicts

namespace Session

open Equation

variable {s : Session}

theorem parse_of_verdict {e : Failure} (h : Verdict text (tokenize text) (.error e)) :
    (s.parse text).1 = .error e := by
  have hread : (s.input text).readPrompt.1 = .error e := readPrompt_of_verdict h
  rcases hprompt : (s.input text).readPrompt with ⟨result, s₁⟩
  rw [hprompt] at hread
  dsimp only at hread
  subst hread
  simp only [parse, hprompt]

theorem evaluate_fst (s : Session) (text : String) :
    (s.evaluate text).1 =
      match (s.parse text).1 with
      | .error e => .error e
      | .ok tree =>
        match tree.evaluate with
        | .error z => .error ⟨.zeroDivision z.span, text⟩
        | .ok x => .ok x := by
  have htext := s.text_parse text
  unfold evaluate
  rcases hparse : s.parse text with ⟨e | tree, s₁⟩
  · rfl
  · rw [hparse] at htext
    dsimp only
    cases tree.evaluate with
    | error z => exact htext ▸ rfl
    | ok x => rfl

/-- Prompts with trees that are alike have the same answer, or both divide by zero at tokens of a
pair. -/
theorem evaluate_of_alike {paired : Token → Token → Prop} {tree tree' : Expr}
    (h : (s.parse text).1 = .ok tree) (h' : (s.parse text').1 = .ok tree')
    (halike : tree.Alike paired s.answer s.answer tree') :
    Matched (fun e f => ∃ t u, paired t u ∧ e = ⟨.zeroDivision (some t.span), text⟩ ∧
        f = ⟨.zeroDivision (some u.span), text'⟩) (· = ·)
      (s.evaluate text).1 (s.evaluate text').1 := by
  have hvalue := halike.evaluate
  rw [evaluate_fst, evaluate_fst, h, h']
  dsimp only
  generalize tree.evaluate = value at hvalue
  generalize tree'.evaluate = value' at hvalue
  cases hvalue with
  | ok hvalue => exact .ok hvalue
  | @error z z' hzero =>
    obtain ⟨t, u, hpair, hspan, hspan'⟩ := hzero
    dsimp only
    rw [hspan, hspan']
    exact .error ⟨t, u, hpair, rfl, rfl⟩

theorem parse_alike (h : SameWords text text') (s s' : Session) :
    Matched (Failure.Alike text text') (Expr.Alike (Paired text text') s.answer s'.answer)
      (s.parse text).1 (s'.parse text').1 := by
  obtain ⟨result, hverdict⟩ := exists_verdict text (tokenize text)
  obtain ⟨result', hverdict', hresults⟩ := hverdict.alike h.paired
  -- Both prompts fail before an equation is read, or both envelopes are whole and balanced.
  cases hresults with
  | error halike =>
    rw [parse_of_verdict hverdict, parse_of_verdict hverdict']
    exact .error halike
  | ok =>
    obtain ⟨inner, closing, hencloses, hfault⟩ := hverdict.encloses_of_ok
    obtain ⟨inner', closing', hencloses', hfault'⟩ := hverdict'.encloses_of_ok
    obtain ⟨_, _, _, hcut, hpairs, hrest⟩ := Quoted.paired hencloses h.paired
    obtain rfl := List.forall₂_nil_left_iff.mp hrest
    obtain ⟨rfl, rfl⟩ := hencloses'.unique hcut
    rw [s.parse_of_encloses hencloses, s'.parse_of_encloses hencloses', hfault, hfault']
    have hread : Together (Paired text text') (settingOf s.answer closing)
        (settingOf s'.answer closing') (read (settingOf s.answer closing) 0 ⟨inner, 0⟩)
        (read (settingOf s'.answer closing') 0 ⟨inner', 0⟩) :=
      climb_together (fun _ _ hpair => hpair.1) _ 0 0 _ _ hpairs
    generalize read (settingOf s.answer closing) 0 ⟨inner, 0⟩ = o at hread
    generalize read (settingOf s'.answer closing') 0 ⟨inner', 0⟩ = o' at hread
    cases hread with
    | @error _ _ reason span span' herror herror' hspan =>
      obtain ⟨_, _⟩ := o
      obtain ⟨_, _⟩ := o'
      subst herror herror'
      have hplace : SamePlace text text' span span' := by
        cases hspan with
        | token h => exact .token h
        | stop => exact .closing hencloses hencloses'
      exact .error ⟨rfl, rfl, .equation reason hplace⟩
    | ok htree _ hahead =>
      cases hahead with
      | nil => exact .ok htree
      | cons h => exact .error ⟨rfl, rfl, .equation _ (.token h)⟩

theorem evaluate_alike (h : SameWords text text') (s : Session) :
    Matched (Failure.Alike text text') (· = ·) (s.evaluate text).1 (s.evaluate text').1 := by
  have hparse := parse_alike h s s
  generalize hresult : (s.parse text).1 = result at hparse
  generalize hresult' : (s.parse text').1 = result' at hparse
  cases hparse with
  | error halike =>
    rw [evaluate_fst, evaluate_fst, hresult, hresult']
    exact .error halike
  | ok htree =>
    refine (evaluate_of_alike hresult hresult' htree).imp ?_ fun _ _ => id
    rintro _ _ ⟨t, u, hpair, rfl, rfl⟩
    exact ⟨rfl, rfl, .zeroDivision (.token hpair)⟩

theorem exists_encloses_tokens {tree : Expr} (h : (s.parse text).1 = .ok tree) :
    ∃ inner closing, Encloses text inner closing ∧ ∀ t ∈ tree.tokens, t ∈ inner := by
  obtain ⟨d, closing, hencloses, -, rfl⟩ := exists_derivation_of_parse h
  exact ⟨d.tokens, closing, hencloses, fun t ht => (d.tokens_tree_sublist s.answer).subset ht⟩

/-- Whatever the last answers of two sessions are, a text is parsed alike in both: it fails at the
same place for the same reason, or it has trees that differ only in the leaves read from `ans`.
Without these it has the same answer in both. -/
theorem parse_of_any_answer (s s' : Session) (text : String) :
    Matched (· = ·) (Expr.Alike (· = ·) s.answer s'.answer) (s.parse text).1 (s'.parse text).1 ∧
    ((∀ inner closing, Encloses text inner closing → ∀ t ∈ inner, t.kind ≠ .answer) →
      (s.evaluate text).1 = (s'.evaluate text).1) := by
  have halike : Matched (· = ·) (Expr.Alike (· = ·) s.answer s'.answer) (s.parse text).1
      (s'.parse text).1 :=
    (parse_alike (rfl : SameWords text text) s s').imp (fun _ _ => Failure.Alike.eq)
      fun _ _ htree => htree.imp fun _ _ => Paired.eq
  refine ⟨halike, fun hnone => ?_⟩
  have hparse : (s.parse text).1 = (s'.parse text).1 := by
    generalize hresult : (s.parse text).1 = result at halike
    generalize (s'.parse text).1 = result' at halike
    cases halike with
    | error h => rw [h]
    | ok h =>
      obtain ⟨inner, closing, hencloses, hmem⟩ := exists_encloses_tokens hresult
      rw [h.eq fun t ht => hnone inner closing hencloses t (hmem t ht)]
  rw [evaluate_fst, evaluate_fst, hparse]

theorem evaluate_of_any_answer :
    (new.evaluate "calc '6/4'").1 = (Session.evaluate { new with answer := 7 } "calc '6/4'").1 := by
  refine (parse_of_any_answer new { new with answer := 7 } "calc '6/4'").2 ?_
  intro inner closing hencloses t ht
  have hnone : ∀ t ∈ tokenize "calc '6/4'", t.kind ≠ .answer := by decide +kernel
  exact hnone t (hencloses.mem_tokenize ht)

/-- Texts of the same words are parsed and evaluated alike: they have the same answer, and trees
that differ only in the places of their tokens, or they fail for the same reason at corresponding
places. -/
theorem parse_of_same_words (h : SameWords text text') (s : Session) :
    Matched (Failure.Alike text text') (Expr.Alike (Paired text text') s.answer s.answer)
      (s.parse text).1 (s.parse text').1 ∧
    Matched (Failure.Alike text text') (· = ·) (s.evaluate text).1 (s.evaluate text').1 :=
  ⟨parse_alike h s s, evaluate_alike h s⟩

theorem evaluate_of_other_layout :
    ∃ x, (new.evaluate "calc '2*ans'").1 = .ok x ∧
      (new.evaluate "\tcalc ' 2 * ans '").1 = .ok x := by
  have hwords : SameWords "calc '2*ans'" "\tcalc ' 2 * ans '" := by
    unfold SameWords
    decide +kernel
  have hok : (new.evaluate "calc '2*ans'").1.isOk = true := by decide +kernel
  obtain ⟨-, hvalue⟩ := parse_of_same_words hwords new
  generalize (new.evaluate "calc '2*ans'").1 = result at hvalue hok
  generalize (new.evaluate "\tcalc ' 2 * ans '").1 = result' at hvalue
  cases hvalue with
  | ok h => exact ⟨_, rfl, congrArg Except.ok h.symm⟩
  | error => cases hok

end Session

end PromptCalc
