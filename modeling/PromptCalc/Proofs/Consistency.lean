import PromptCalc.Proofs.BracketCheck
import PromptCalc.Proofs.Envelopes
import PromptCalc.Proofs.Leftovers
import PromptCalc.Proofs.ReadingExtent
import PromptCalc.Proofs.DerivedPhrases

/-!
# Consistency

In every state of a session the lexer stands at a place in its text, and the tokens collected are
cut out of that text. Every call keeps it so, however it ends, and points into the text where it
fails.
-/
namespace PromptCalc.Session

/-- What holds of a session between two calls. -/
structure Consistent (s : Session) : Prop where
  lexer : s.lexer.IsPlaced
  tokens : ∀ t ∈ s.stream.tokens, t.IsCutFrom s.lexer.text
  cursor : s.stream.cursor ≤ s.stream.size
  close : IsPlace s.lexer.text s.close
  depth : s.depth = 0

/-- The failure has the text of the session as its source, and any place it points at lies in it. -/
def PointsInto (s : Session) (e : Failure) : Prop :=
  e.source = s.lexer.text ∧ ∀ span ∈ e.fault.span?, span.LiesIn s.lexer.text

/-- The session is consistent after the call, and a failure of the call points into its text. -/
structure Sound {α : Type} (o : Except Failure α × Session) : Prop where
  state : o.2.Consistent
  failure : ∀ e, o.1 = .error e → o.2.PointsInto e

section Steps

variable {s : Session}

theorem Consistent.input (s : Session) (text : String) : (s.input text).Consistent where
  lexer := Lexer.isPlaced_ofText text
  tokens := nofun
  cursor := Nat.le_refl 0
  close := isPlace_size text
  depth := rfl

theorem Consistent.of_advances {s' : Session} (h : s.Consistent) (hadvances : s.Advances s') :
    s'.Consistent := by
  obtain ⟨⟨n, -, hlexer⟩, ⟨inner, hinner, hstream⟩, hclose, hdepth⟩ := hadvances
  have htext : s'.lexer.text = s.lexer.text := by rw [hlexer, Lexer.text_skip]
  refine ⟨?_, ?_, ?_, ?_, hdepth.trans h.depth⟩
  · rw [hlexer]
    exact h.lexer.skip n
  · intro t ht
    rw [hstream] at ht
    rw [htext]
    rcases List.mem_append.mp ht with ht | ht
    · exact h.tokens t ht
    · exact h.lexer.isCutFrom_of_mem (hinner.subset ht)
  · rw [hstream]
    exact h.cursor.trans (by simp [TokenStream.append, TokenStream.size])
  · rw [htext]
    rcases hclose with hclose | ⟨t, ht, hclose⟩
    · exact hclose ▸ h.close
    · exact hclose ▸ (h.lexer.isCutFrom_of_mem ht).lies.1

theorem readPrompt_sound (h : s.Consistent) : Sound s.readPrompt := by
  have hadvances := readPrompt_advances h.lexer
  have hafter : s.readPrompt.2.Consistent := h.of_advances hadvances
  obtain ⟨n, -, hlexer⟩ := hadvances.lexer
  have htext : s.readPrompt.2.lexer.text = s.lexer.text := by rw [hlexer, Lexer.text_skip]
  refine ⟨hafter, fun e he => ?_⟩
  obtain ⟨hsource, t, hspan, ht⟩ := exists_token_of_readPrompt he
  refine ⟨hsource.trans htext.symm, fun span hmem => ?_⟩
  obtain rfl := Option.some.inj (hspan.symm.trans hmem)
  rcases ht with rfl | ht | ht
  · rw [htext]
    exact ⟨isPlace_size _, isPlace_size _⟩
  · rw [htext]
    exact (h.lexer.isCutFrom_of_mem ht).lies
  · exact (hafter.tokens t ht).lies

theorem Consistent.resume (h : s.Consistent) {r : Equation.Reader} (hdepth : r.depth = s.depth) :
    (s.resume r).Consistent where
  lexer := h.lexer
  tokens := h.tokens
  cursor := Nat.sub_le ..
  close := h.close
  depth := hdepth.trans h.depth

/-- However the reading of an equation ends, it has gone on in the tokens ahead. -/
theorem exists_resume_readEquation (s : Session) (power : Nat) :
    ∃ r : Equation.Reader, (s.readEquation power).2 = s.resume r ∧ r.depth = s.depth ∧
      r.ahead <:+ s.stream.ahead := by
  have hread := Equation.read_confined s.setting power s.reader
  unfold readEquation
  rcases hresult : Equation.read s.setting power s.reader with ⟨fault | phrase, r⟩ <;>
    rw [hresult] at hread
  · exact ⟨r, rfl, hread.depth, hread.ahead⟩
  · exact ⟨r, rfl, hread.depth, hread.ahead⟩

/-- However the reading of an equation ends, it has advanced the stream token by token. -/
theorem exists_skip_readEquation (hcursor : s.stream.cursor ≤ s.stream.size) (power : Nat) :
    ∃ n ≤ s.stream.ahead.length, (s.readEquation power).2.stream = s.stream.skip n := by
  obtain ⟨r, hresume, -, hahead⟩ := s.exists_resume_readEquation power
  have hleft : s.stream.ahead.length - (s.stream.ahead.length - r.ahead.length) = r.ahead.length :=
    Nat.sub_sub_self hahead.length_le
  refine ⟨s.stream.ahead.length - r.ahead.length, Nat.sub_le .., ?_⟩
  rw [hresume, TokenStream.skip_eq_withLeft hcursor (Nat.sub_le ..), hleft]
  rfl

theorem readEquation_sound (h : s.Consistent) (power : Nat) : Sound (s.readEquation power) := by
  have hread := Equation.read_confined s.setting power s.reader
  unfold readEquation
  rcases hresult : Equation.read s.setting power s.reader with ⟨fault | phrase, r⟩ <;>
    rw [hresult] at hread
  · refine ⟨h.resume hread.depth, fun e he => ?_⟩
    obtain rfl := Except.error.inj he
    refine ⟨rfl, fun span hspan => ?_⟩
    obtain rfl := Option.some.inj hspan
    rcases hread.fault fault rfl with hstop | ⟨t, ht, hspan⟩
    · rw [hstop]
      exact ⟨h.close, h.close⟩
    · rw [hspan]
      exact (h.tokens t (List.mem_of_mem_drop ht)).lies
  · exact ⟨h.resume hread.depth, nofun⟩

theorem readWhole_sound (h : s.Consistent) : Sound s.readWhole := by
  have hread := readEquation_sound h 0
  unfold readWhole
  rcases hresult : s.readEquation 0 with ⟨e | tree, s'⟩ <;> rw [hresult] at hread
  · exact hread
  · dsimp only
    split
    · next t hpeek =>
      refine ⟨hread.state, fun e he => ?_⟩
      obtain rfl := Except.error.inj he
      refine ⟨rfl, fun span hspan => ?_⟩
      obtain rfl := Option.some.inj hspan
      exact (hread.state.tokens t (List.mem_of_getElem? hpeek)).lies
    · exact ⟨hread.state, nofun⟩

theorem Sound.error {α β : Type} {e : Failure}
    (h : Sound ((.error e, s) : Except Failure α × Session)) :
    Sound ((.error e, s) : Except Failure β × Session) := by
  refine ⟨h.state, fun e' he => ?_⟩
  obtain rfl := Except.error.inj he
  exact h.failure e rfl

theorem parse_sound (s : Session) (text : String) : Sound (s.parse text) := by
  have hprompt := readPrompt_sound (Consistent.input s text)
  unfold parse
  rcases hresult : (s.input text).readPrompt with ⟨e | u, s'⟩ <;> rw [hresult] at hprompt
  · exact hprompt.error
  · exact readWhole_sound hprompt.state

theorem exists_readEquation_of_parse {text : String} {tree : Expr} {s' : Session}
    (h : s.parse text = (.ok tree, s')) :
    ∃ s₁, (s.input text).readPrompt = (.ok (), s₁) ∧ s₁.readEquation 0 = (.ok tree, s') := by
  unfold parse at h
  rcases hprompt : (s.input text).readPrompt with ⟨e | u, s₁⟩ <;> rw [hprompt] at h
  · cases h
  · exact ⟨s₁, rfl, (readEquation_of_readWhole h).1⟩

theorem exists_derivation_of_readEquation {power : Nat} {tree : Expr} {s' : Session}
    (h : s.readEquation power = (.ok tree, s')) :
    ∃ (c : Category) (d : Derivation c), d.tokens <:+: s'.stream.tokens ∧
      d.tree s.answer = tree := by
  obtain ⟨p, r, hread, rfl, rfl⟩ := exists_phrase_of_readEquation h
  obtain ⟨c, d, hd, -⟩ := Equation.climb_sound _ _ _ _ _ _ hread
  have hahead : s.stream.ahead = d.tokens ++ r.ahead := hd.ahead
  have hinfix : d.tokens <:+: s.stream.ahead := hahead ▸ (List.prefix_append ..).isInfix
  refine ⟨c, d, hinfix.trans (List.drop_suffix ..).isInfix, ?_⟩
  rw [hd.phrase]
  rfl

theorem evaluate_sound (s : Session) (text : String) : Sound (s.evaluate text) := by
  have hparsed := s.parse_sound text
  rcases hparse : s.parse text with ⟨e | tree, s'⟩ <;> rw [hparse] at hparsed
  · simp only [evaluate, hparse]
    exact hparsed.error
  · simp only [evaluate, hparse]
    split
    · next z hevaluate =>
      refine ⟨hparsed.state, fun e he => ?_⟩
      obtain rfl := Except.error.inj he
      refine ⟨rfl, fun span hspan => ?_⟩
      obtain ⟨s₁, -, hread⟩ := exists_readEquation_of_parse hparse
      obtain ⟨c, d, hinfix, rfl⟩ := exists_derivation_of_readEquation hread
      obtain ⟨t, ht, rfl⟩ := Expr.mem_tokens_of_evaluate hevaluate hspan
      have hmem : t ∈ s'.stream.tokens :=
        hinfix.subset ((d.tokens_tree_sublist s₁.answer).subset ht)
      exact (hparsed.state.tokens t hmem).lies
    · refine ⟨⟨hparsed.state.lexer, hparsed.state.tokens, hparsed.state.cursor,
        hparsed.state.close, hparsed.state.depth⟩, fun e he => ?_⟩
      cases he

end Steps

section Calls

variable {s start : Session} {c : Call}

theorem Sound.responseOf {α : Type} {o : Except Failure α × Session} (h : Sound o)
    {ok : α → Response} (hok : ∀ a e, ok a ≠ .failure e) :
    (responseOf ok o).2.Consistent ∧
      ∀ e, (responseOf ok o).1 = .failure e → (responseOf ok o).2.PointsInto e := by
  rcases o with ⟨e | a, s⟩
  · refine ⟨h.state, fun e' he => ?_⟩
    obtain rfl := Response.failure.inj he
    exact h.failure e rfl
  · exact ⟨h.state, fun e he => absurd he (hok a e)⟩

/-- Every call keeps a session consistent, and a call that fails points into the text. -/
theorem call_sound (h : s.Consistent) (c : Call) :
    (s.call c).2.Consistent ∧ ∀ e, (s.call c).1 = .failure e → (s.call c).2.PointsInto e := by
  cases c with
  | input text => exact ⟨.input s text, nofun⟩
  | readPrompt => exact (readPrompt_sound h).responseOf nofun
  | readEquation power => exact (readEquation_sound h power).responseOf nofun
  | parse text => exact (s.parse_sound text).responseOf nofun
  | evaluate text => exact (s.evaluate_sound text).responseOf nofun
  | tokens => exact ⟨h, nofun⟩
  | clear => exact ⟨⟨h.lexer, h.tokens, h.cursor, h.close, h.depth⟩, nofun⟩

theorem Initial.consistent (h : Initial start) : start.Consistent := by
  have hfresh {l : Lexer} (hl : l.IsPlaced) : (Session.ofLexer l).Consistent :=
    ⟨hl, nofun, Nat.le_refl 0, isPlace_zero l.text, rfl⟩
  cases h with
  | new => exact hfresh (Lexer.isPlaced_ofText "")
  | ofLexer text n => exact hfresh ((Lexer.isPlaced_ofText text).skip n)

theorem Reachable.consistent (h : s.Reachable) : s.Consistent := by
  obtain ⟨start, calls, hstart, rfl⟩ := h
  induction calls using List.reverseRecOn with
  | nil => exact hstart.consistent
  | append_singleton calls c ih =>
    rw [run_append]
    exact (call_sound ih c).1

end Calls

end PromptCalc.Session
