import PromptCalc.Proofs.Prompts
import PromptCalc.Proofs.TokenPlaces

/-!
# What is read of an envelope

A prompt is read token by token up to where its envelope is complete or breaks off. The tokens of
the equation are collected on the way, and a fault is at one of the tokens read.
-/
namespace PromptCalc

namespace Envelope

/-- What an envelope says of the tokens it is the envelope of. -/
inductive FoundIn : List Token → Envelope → Prop where
  | noCommand (ts : List Token) : FoundIn ts (.noCommand ts.head?)
  | commandAlone (command : Token) : FoundIn [command] (.commandAlone command)
  | noOpening (command found : Token) (ts : List Token) :
      FoundIn (command :: found :: ts) (.noOpening found)
  | noClosing (command opening : Token) (inner : List Token) :
      FoundIn (command :: opening :: inner) (.noClosing opening inner)
  | trailing (command opening closing found : Token) (inner ts : List Token) :
      FoundIn (command :: opening :: (inner ++ closing :: found :: ts))
        (.trailing inner closing found)
  | complete (command opening closing : Token) (inner : List Token) :
      FoundIn (command :: opening :: (inner ++ [closing])) (.complete inner closing)

theorem foundIn_afterOpening (command opening : Token) (ts : List Token) :
    FoundIn (command :: opening :: ts) (afterOpening opening ts) := by
  have hcut := List.takeWhile_append_dropWhile (p := (!isQuote ·)) (l := ts)
  unfold afterOpening
  split
  · next hdrop =>
    rw [hdrop, List.append_nil] at hcut
    rw [hcut]
    exact .noClosing command opening ts
  · next closing hdrop =>
    rw [hdrop] at hcut
    have h := FoundIn.complete command opening closing (ts.takeWhile (!isQuote ·))
    rwa [hcut] at h
  · next closing found rest hdrop =>
    rw [hdrop] at hcut
    have h := FoundIn.trailing command opening closing found (ts.takeWhile (!isQuote ·)) rest
    rwa [hcut] at h

theorem foundIn_ofTokens (ts : List Token) : FoundIn ts (ofTokens ts) := by
  rcases ts with _ | ⟨command, _ | ⟨opening, ts⟩⟩ <;> simp only [ofTokens]
  · exact .noCommand []
  · split
    · exact .noCommand [command]
    · exact .commandAlone command
  · split
    · exact .noCommand (command :: opening :: ts)
    · split
      · exact foundIn_afterOpening command opening ts
      · exact .noOpening command opening ts

end Envelope

theorem Nesting.mem_of_faultAfter {previous : Option TokenKind} {openers ts : List Token}
    {t : Token} (h : faultAfter previous openers ts = some t) : t ∈ openers ∨ t ∈ ts := by
  fun_induction faultAfter previous openers ts with
  | case1 previous openers => exact .inl (List.mem_of_head? h)
  | case2 previous openers u us shape hkind ih =>
    rcases ih h with hmem | hmem
    · exact (List.mem_cons.mp hmem).elim (fun hu => .inr (hu ▸ List.mem_cons_self)) .inl
    · exact .inr (List.mem_cons_of_mem _ hmem)
  | case3 | case4 | case6 =>
    obtain rfl := Option.some.inj h
    exact .inr List.mem_cons_self
  | case5 previous u us shape hkind hpair top openers hopen ih =>
    exact (ih h).imp (List.mem_cons_of_mem _) (List.mem_cons_of_mem _)
  | case7 previous openers u us hopening hclosing ih =>
    exact (ih h).imp_right (List.mem_cons_of_mem _)

namespace Session

variable {s : Session}

/-- Reading a prompt takes the lexer on from token to token, and adds some of those tokens to the
session. -/
structure Advances (s s' : Session) : Prop where
  lexer : ∃ n ≤ s.lexer.tokens.length + 1, s'.lexer = s.lexer.skip n
  stream : ∃ inner, inner <:+: s.lexer.tokens ∧ s'.stream = s.stream.append inner
  close : s'.close = s.close ∨ ∃ t ∈ s.lexer.tokens, s'.close = t.span.start
  depth : s'.depth = s.depth

theorem readPrompt_advances (h : s.lexer.IsPlaced) : s.Advances s.readPrompt.2 := by
  have hskip := Lexer.skip_succ h.isBeyond_eq_false
  have hfound := Envelope.foundIn_ofTokens s.lexer.tokens
  have hnothing (stream : TokenStream) : stream = stream.append [] := by
    simp [TokenStream.append]
  unfold readPrompt
  generalize hts : s.lexer.tokens = ts at hskip hfound ⊢
  generalize Envelope.ofTokens ts = envelope at hfound ⊢
  cases hfound with
  | noCommand ts =>
    refine ⟨⟨1, Nat.le_add_left .., ?_⟩, ⟨[], List.nil_infix, hnothing _⟩, .inl rfl, rfl⟩
    rw [hskip 0, ← List.head?_eq_getElem?]
    rfl
  | commandAlone command =>
    exact ⟨⟨2, by rw [hts]; rfl, (hskip 1).symm⟩, ⟨[], List.nil_infix, hnothing _⟩, .inl rfl, rfl⟩
  | noOpening command found rest =>
    exact ⟨⟨2, by simp [hts], (hskip 1).symm⟩, ⟨[], List.nil_infix, hnothing _⟩, .inl rfl, rfl⟩
  | noClosing command opening inner =>
    have hinner : inner <:+: s.lexer.tokens :=
      hts ▸ (List.suffix_append [command, opening] inner).isInfix
    refine ⟨⟨inner.length + 3, by simp [hts], ?_⟩, ⟨inner, hinner, rfl⟩, .inl rfl, rfl⟩
    rw [hskip (inner.length + 2), List.getElem?_eq_none (by simp)]
    rfl
  | trailing command opening closing found inner rest =>
    have hinner : inner <:+: s.lexer.tokens :=
      hts ▸ ⟨[command, opening], closing :: found :: rest, rfl⟩
    refine ⟨⟨inner.length + 4, by simp [hts], ?_⟩, ⟨inner, hinner, rfl⟩,
      .inr ⟨closing, by simp [hts], rfl⟩, rfl⟩
    have hthere : (command :: opening :: (inner ++ closing :: found :: rest))[inner.length + 3]? =
        some found := by simp
    rw [hskip (inner.length + 3), hthere]
    rfl
  | complete command opening closing inner =>
    have hinner : inner <:+: s.lexer.tokens := hts ▸ ⟨[command, opening], [closing], rfl⟩
    have hend : s.lexer.after none = s.lexer.skip (inner.length + 4) := by
      rw [hskip (inner.length + 3), List.getElem?_eq_none (by simp)]
    have hadvances : s.Advances (((s.pass none).collect inner).closeAt closing) :=
      ⟨⟨inner.length + 4, by simp [hts], hend⟩, ⟨inner, hinner, rfl⟩,
        .inr ⟨closing, by simp [hts], rfl⟩, rfl⟩
    dsimp only
    split <;> exact hadvances

/-- A prompt that is not read points at a token ahead or collected, or at the end of its text. -/
theorem exists_token_of_readPrompt {e : Failure} (h : s.readPrompt.1 = .error e) :
    e.source = s.lexer.text ∧ ∃ t, e.fault.span? = some t.span ∧
      (t = s.lexer.eof ∨ t ∈ s.lexer.tokens ∨ t ∈ s.readPrompt.2.stream.tokens) := by
  have hfound := Envelope.foundIn_ofTokens s.lexer.tokens
  unfold readPrompt at h ⊢
  generalize s.lexer.tokens = ts at hfound h ⊢
  generalize Envelope.ofTokens ts = envelope at hfound h ⊢
  cases hfound with
  | noCommand ts =>
    obtain rfl := Except.error.inj h
    refine ⟨rfl, ts.head?.getD s.lexer.eof, rfl, ?_⟩
    cases ts with
    | nil => exact .inl rfl
    | cons t ts => exact .inr (.inl List.mem_cons_self)
  | commandAlone command =>
    obtain rfl := Except.error.inj h
    exact ⟨rfl, command, rfl, .inr (.inl List.mem_cons_self)⟩
  | noOpening command found rest =>
    obtain rfl := Except.error.inj h
    exact ⟨rfl, found, rfl, .inr (.inl (by simp))⟩
  | noClosing command opening inner =>
    obtain rfl := Except.error.inj h
    exact ⟨rfl, opening, rfl, .inr (.inl (by simp))⟩
  | trailing command opening closing found inner rest =>
    obtain rfl := Except.error.inj h
    exact ⟨rfl, found, rfl, .inr (.inl (by simp))⟩
  | complete command opening closing inner =>
    dsimp only at h ⊢
    split at h
    · next t hfault =>
      obtain rfl := Except.error.inj h
      refine ⟨rfl, t, rfl, .inr (.inr ?_)⟩
      have hmem : t ∈ (((s.pass none).collect inner).closeAt closing).stream.tokens :=
        (Nesting.mem_of_faultAfter hfault).resolve_left List.not_mem_nil
      simpa only [hfault] using hmem
    · cases h

end Session

end PromptCalc
