import PromptCalc.Proofs.DerivedPhrases
import PromptCalc.Proofs.Frontier
import PromptCalc.Proofs.Prompts

/-!
# The check of the brackets

The brackets that the check holds open are those of the frontier, as far as the frontier passes the
tokens. So the check finds every bracket that the reader would not close, and it turns down nothing
that the reader would accept.
-/
namespace PromptCalc

namespace Nesting

/-- The check is where the frontier is: brackets of the same shapes are open, and none was opened
right before an operator. -/
structure Follows (f : Frontier) (previous : Option TokenKind) (openers : List Token) : Prop where
  openers : openers.map Token.kind = f.shapes.map .opening
  previous : f.expected = .operator → ∀ shape, previous ≠ some (.opening shape)

theorem follows_start : Follows .start none [] := ⟨rfl, nofun⟩

section

variable {f g : Frontier} {previous : Option TokenKind} {openers : List Token} {t : Token}

theorem faultAfter_unmatched {shape : Bracket} {ts : List Token} (hclose : t.kind = .closing shape)
    (hopen : ∀ top ∈ openers.head?, top.kind ≠ .opening shape) :
    faultAfter previous openers (t :: ts) = some t := by
  rw [faultAfter]
  simp only [hclose]
  split
  · rfl
  · cases openers with
    | nil => rfl
    | cons top openers => exact if_neg (hopen top rfl)

theorem Follows.pass (h : Follows f previous openers) (hpass : f.Passes t g) :
    ∃ openers', Follows g (some t.kind) openers' ∧
      ∀ ts, faultAfter previous openers (t :: ts) = faultAfter (some t.kind) openers' ts := by
  obtain ⟨hopeners, hprevious⟩ := h
  cases hpass with
  | opening hkind =>
    refine ⟨t :: openers, ⟨?_, nofun⟩, fun ts => faultAfter_opening hkind⟩
    rw [List.map_cons, hopeners, hkind]
    rfl
  | closing hkind =>
    obtain ⟨top, rest, rfl, htop, hrest⟩ := List.map_eq_cons_iff.mp hopeners
    exact ⟨rest, ⟨hrest, by simp [hkind]⟩,
      fun ts => faultAfter_closing (hprevious rfl _) htop hkind⟩
  | number hkind =>
    have hother : t.kind.isOpening = false ∧ t.kind.isClosing = false := by
      rcases hkind with h | h <;> rw [h] <;> decide
    refine ⟨openers, ⟨hopeners, ?_⟩, fun ts => faultAfter_other hother.1 hother.2⟩
    rcases hkind with h | h <;> simp [h]
  | answer hkind =>
    exact ⟨openers, ⟨hopeners, by simp [hkind]⟩,
      fun ts => faultAfter_other (by rw [hkind]; rfl) (by rw [hkind]; rfl)⟩
  | sign hkind =>
    exact ⟨openers, ⟨hopeners, by simp [hkind]⟩,
      fun ts => faultAfter_other (by rw [hkind]; rfl) (by rw [hkind]; rfl)⟩
  | operator hkind =>
    exact ⟨openers, ⟨hopeners, by simp [hkind]⟩,
      fun ts => faultAfter_other (by rw [hkind]; rfl) (by rw [hkind]; rfl)⟩

theorem Follows.run {front : List Token} (h : Follows f previous openers)
    (hrun : f.run front = some g) :
    ∃ previous' openers', Follows g previous' openers' ∧
      ∀ ts, faultAfter previous openers (front ++ ts) = faultAfter previous' openers' ts := by
  induction front generalizing f previous openers with
  | nil =>
    obtain rfl := Option.some.inj hrun
    exact ⟨previous, openers, h, fun _ => rfl⟩
  | cons t front ih =>
    obtain ⟨mid, hstep, hrest⟩ := Option.bind_eq_some_iff.mp hrun
    obtain ⟨openers₁, hmid, hfirst⟩ := h.pass (Frontier.passes_of_step hstep)
    obtain ⟨previous', openers', hfollows, hall⟩ := ih hmid hrest
    exact ⟨previous', openers', hfollows, fun ts => (hfirst (front ++ ts)).trans (hall ts)⟩

/-- What the check says of tokens is decided behind the part that the frontier passes. -/
theorem exists_fault?_run {front : List Token} (hrun : Frontier.start.run front = some g) :
    ∃ previous openers, Follows g previous openers ∧
      ∀ ts, fault? (front ++ ts) = faultAfter previous openers ts :=
  follows_start.run hrun

theorem fault?_refused {front back : List Token} {shape : Bracket}
    (hrun : Frontier.start.run front = some g) (hexpected : g.expected = .operator)
    (hclose : t.kind = .closing shape) (hstep : g.step t = none) :
    fault? (front ++ t :: back) = some t := by
  obtain ⟨previous, openers, ⟨hopeners, -⟩, hfault⟩ := exists_fault?_run hrun
  rw [hfault]
  refine faultAfter_unmatched hclose fun top htop hopen => ?_
  obtain ⟨expected, shapes⟩ := g
  obtain ⟨rest, rfl⟩ : ∃ rest, openers = top :: rest := List.head?_eq_some_iff.mp htop
  obtain ⟨shape', shapes', rfl, hshape, -⟩ := List.map_eq_cons_iff.mp hopeners.symm
  obtain rfl := TokenKind.opening.inj (hshape.trans hopen)
  obtain rfl := hexpected
  rw [(Frontier.Passes.closing hclose).step_eq] at hstep
  cases hstep

theorem fault?_unclosed {ts : List Token} {shape : Bracket}
    (hrun : Frontier.start.run ts = some g) (hopen : shape ∈ g.shapes) :
    ∃ t, fault? ts = some t := by
  obtain ⟨previous, openers, ⟨hopeners, -⟩, hfault⟩ := exists_fault?_run hrun
  have hend := hfault []
  rw [List.append_nil] at hend
  cases openers with
  | nil =>
    rw [List.map_eq_nil_iff.mp hopeners.symm] at hopen
    cases hopen
  | cons top openers => exact ⟨top, hend⟩

end

end Nesting

namespace Session

/-- Takes off the envelope of a prompt, without a check of the brackets. -/
def readUnchecked (s : Session) : Except Failure Unit × Session :=
  match Envelope.ofTokens s.lexer.tokens with
  | .complete inner closing => (.ok (), ((s.pass none).collect inner).closeAt closing)
  | _ => s.readPrompt

/-- The tree of a prompt whose brackets are not checked before it is read. -/
def parseUnchecked (s : Session) (text : String) : Except Failure Expr × Session :=
  match (s.input text).readUnchecked with
  | (.error e, s) => (.error e, s)
  | (.ok _, s) => s.readWhole

theorem readPrompt_eq_check (s : Session) :
    s.readPrompt =
      match s.readUnchecked with
      | (.error e, s) => (.error e, s)
      | (.ok _, s) =>
        match Nesting.fault? s.stream.tokens with
        | some t => (s.fail (.equation ⟨.unbalancedBrackets, t.span⟩), s)
        | none => (.ok (), s) := by
  cases henvelope : Envelope.ofTokens s.lexer.tokens with
  | complete inner closing =>
    cases hfault : Nesting.fault? (((s.pass none).collect inner).closeAt closing).stream.tokens <;>
      simp only [readUnchecked, readPrompt, henvelope, hfault]
  | _ => simp only [readUnchecked, readPrompt, henvelope, fail]

/-- Tokens that are read to their end have brackets that pass the check. -/
theorem fault?_of_readEquation {s s' : Session} {tree : Expr} (hfresh : s.stream.cursor = 0)
    (h : s.readEquation 0 = (.ok tree, s')) (hend : s'.stream.peek? = none) :
    Nesting.fault? s.stream.tokens = none := by
  have hahead : s.reader.ahead = s.stream.tokens := by
    simp [reader, TokenStream.ahead, hfresh]
  obtain ⟨p, r, hread, -, rfl⟩ := exists_phrase_of_readEquation h
  obtain ⟨c, d, hd, -⟩ := Equation.climb_sound _ _ _ _ _ _ hread
  have htokens : s.stream.tokens = d.tokens ++ r.ahead := hahead ▸ hd.ahead
  have hpeek : (s.resume r).stream.peek? = r.ahead.head? := TokenStream.peek?_withLeft htokens
  rw [hend] at hpeek
  rw [htokens, List.head?_eq_none_iff.mp hpeek.symm, List.append_nil]
  exact Nesting.fault?_derivation d

theorem readEquation_of_readWhole {s s' : Session} {tree : Expr}
    (h : s.readWhole = (.ok tree, s')) :
    s.readEquation 0 = (.ok tree, s') ∧ s'.stream.peek? = none := by
  rcases hread : s.readEquation 0 with ⟨e | tree', s₁⟩
  · simp [readWhole, hread] at h
  · simp only [readWhole, hread] at h
    split at h
    · simp [fail] at h
    · next hpeek =>
      obtain ⟨htree, rfl⟩ := Prod.mk.inj h
      obtain rfl := Except.ok.inj htree
      exact ⟨rfl, hpeek⟩

theorem cursor_of_readUnchecked {s s' : Session} {u : Unit} (h : s.readUnchecked = (.ok u, s')) :
    s'.stream.cursor = s.stream.cursor := by
  cases henvelope : Envelope.ofTokens s.lexer.tokens with
  | complete inner closing =>
    simp only [readUnchecked, henvelope] at h
    obtain rfl := (Prod.mk.inj h).2
    rfl
  | _ => simp [readUnchecked, readPrompt, henvelope, fail] at h

/-- The check of the brackets turns down nothing that would be read to its end, so a prompt has a
tree with the check exactly if it has the same tree without it. -/
theorem parse_eq_ok_iff_unchecked (s : Session) :
    (∀ (ts : List Token) (tree : Expr) (s' : Session),
      { s with stream := .ofList ts }.readEquation 0 = (.ok tree, s') →
      s'.stream.cursor = ts.length → Nesting.fault? ts = none) ∧
    ∀ (text : String) (tree : Expr) (s' : Session),
      s.parse text = (.ok tree, s') ↔ s.parseUnchecked text = (.ok tree, s') := by
  refine ⟨fun ts tree s' h hcursor => ?_, fun text tree s' => ?_⟩
  · obtain ⟨r, hresume⟩ := readEquation_snd { s with stream := .ofList ts } 0
    have hkept : s'.stream.tokens = ts := by
      rw [h] at hresume
      exact congrArg (fun s => s.stream.tokens) hresume
    have hend : s'.stream.peek? = none := by
      simp [TokenStream.peek?, hkept, hcursor]
    exact fault?_of_readEquation rfl h hend
  · rw [parse, parseUnchecked, readPrompt_eq_check]
    rcases hread : (s.input text).readUnchecked with ⟨e | u, s₁⟩
    · exact Iff.rfl
    · dsimp only
      cases hfault : Nesting.fault? s₁.stream.tokens with
      | none => exact Iff.rfl
      | some t =>
        refine ⟨fun h => by simp [fail] at h, fun h => ?_⟩
        have hfresh : s₁.stream.cursor = 0 := cursor_of_readUnchecked hread
        obtain ⟨hequation, hend⟩ := readEquation_of_readWhole h
        rw [fault?_of_readEquation hfresh hequation hend] at hfault
        cases hfault

/-- Brackets that are read to their end, in a stream and in a prompt. -/
theorem parse_unchecked_of_brackets :
    Nesting.fault? [⟨.opening .round, "(", ⟨0, 1⟩⟩, ⟨.int, "1", ⟨1, 1⟩⟩,
      ⟨.closing .round, ")", ⟨2, 1⟩⟩] = none ∧
    ∃ tree s', new.parse "calc '[1]'" = (.ok tree, s') :=
  ⟨(parse_eq_ok_iff_unchecked new).1 _ _ _ (by with_unfolding_all rfl) (by with_unfolding_all rfl),
    _, _, ((parse_eq_ok_iff_unchecked new).2 _ _ _).mpr (by with_unfolding_all rfl)⟩

end Session

end PromptCalc
