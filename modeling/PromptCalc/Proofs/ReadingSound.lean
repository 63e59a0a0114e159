import PromptCalc.Proofs.Reading

/-!
# What is read is derived

A phrase that the reader finds is derived by the grammar from the tokens it has taken, and keeps
within the limits. Between two operators the reader holds a phrase of some category, and the next
operator has less power than would extend its last operand.
-/
namespace PromptCalc.Equation

/-- From one reader to the other, the tokens of a phrase have been taken for it. -/
structure Derived (setting : Setting) (depth : Nat) (r : Reader) (p : Phrase) (r' : Reader)
    {c : Category} (d : Derivation c) : Prop where
  ahead : r.ahead = d.tokens ++ r'.ahead
  same_depth : r'.depth = r.depth
  phrase : p = .ofDerivation setting d
  admitted : Admitted setting depth d
  stop : Below c.stop r'.ahead

/-- The phrase was read as far as operators of at least the given power reach. -/
def Found (setting : Setting) (depth power : Nat) (r : Reader) (p : Phrase) (r' : Reader) : Prop :=
  ∃ (c : Category) (d : Derivation c), Derived setting depth r p r' d ∧ c.Fits power ∧
    Ended r'.ahead ∧ Below power r'.ahead

theorem below_atom (ts : List Token) : Below Category.atom.stop ts := by
  intro t _ op _
  cases op <;> decide

theorem Admitted.recast {setting : Setting} {depth : Nat} {c c' : Category} {d : Derivation c}
    {d' : Derivation c'} (h : Admitted setting depth d) (hrecast : d.Recasts d') :
    Admitted setting depth d' := by
  rw [Admitted, hrecast.levels, hrecast.tree]
  exact h

theorem ofDerivation_recast (setting : Setting) {c c' : Category} {d : Derivation c}
    {d' : Derivation c'} (h : d.Recasts d') :
    Phrase.ofDerivation setting d' = .ofDerivation setting d := by
  simp only [Phrase.ofDerivation, h.tree]

/-- What a reader of phrases is asked to do for the phrases inside another one. -/
def Sound (setting : Setting) (sub : Nat → Reader → Outcome) : Prop :=
  ∀ (power : Nat) (r r' : Reader) (p : Phrase), sub power r = (.ok p, r') →
    Found setting r.depth power r p r'

section

variable {setting : Setting} {sub : Nat → Reader → Outcome} {depth : Nat} {ts : List Token}
  {p : Phrase} {r' : Reader}

theorem bracketed_derived (hsub : Sound setting sub) {opener : Token} {shape : Bracket}
    (hopen : opener.kind = .opening shape)
    (h : bracketed sub opener shape ⟨ts, depth + 1⟩ = (.ok p, r')) :
    ∃ d : Derivation .atom, Derived setting depth ⟨opener :: ts, depth + 1⟩ p r' d := by
  unfold bracketed at h
  split at h
  · simp at h
  · next inner r₁ hinner =>
    obtain ⟨c, d, hd, _⟩ := hsub _ _ _ _ hinner
    obtain ⟨sum, hsum⟩ := Derivation.exists_recast c.widens_sum d
    split at h
    · simp [fail] at h
    · next closer rest hahead =>
      dsimp only at h
      split at h
      · next hclose =>
        simp only [Prod.mk.injEq, Except.ok.injEq] at h
        obtain ⟨rfl, rfl⟩ := h
        have hts : ts = d.tokens ++ r₁.ahead := hd.ahead
        refine ⟨.bracket shape opener closer hopen hclose sum, ?_, hd.same_depth, ?_, ?_,
          below_atom _⟩
        · simp [Derivation.tokens, hsum.tokens, hts, hahead]
        · rw [hd.phrase, ← ofDerivation_recast setting hsum]
          rfl
        · exact admitted_bracket.mpr (hd.admitted.recast hsum)
      · simp [fail] at h

theorem signed_derived (hsub : Sound setting sub) {sign : Token} {op : Operator}
    (hop : sign.kind = .operator op)
    (h : signed sub sign op ⟨ts, depth + 1⟩ = (.ok p, r')) :
    ∃ d : Derivation .signed, Derived setting depth ⟨sign :: ts, depth + 1⟩ p r' d := by
  unfold signed at h
  split at h
  · simp [fail] at h
  · next least hleast =>
    split at h
    · simp at h
    · next operand r₁ hoperand =>
      simp only [Prod.mk.injEq, Except.ok.injEq] at h
      obtain ⟨rfl, rfl⟩ := h
      obtain ⟨c, d, hd, hfit, _, hbelow⟩ := hsub _ _ _ _ hoperand
      obtain rfl := Operator.eq_five_of_signPower? hleast
      have hfour : c.Fits 4 := by cases c <;> simp_all [Category.Fits]
      obtain ⟨operand, hoperand⟩ := Derivation.exists_recast (Category.widens_sign hfour) d
      have hts : ts = d.tokens ++ r₁.ahead := hd.ahead
      refine ⟨.sign op sign hop (by simp [hleast]) operand, ?_, hd.same_depth, ?_, ?_, hbelow⟩
      · simp [Derivation.tokens, hoperand.tokens, hts]
      · rw [hd.phrase, ← ofDerivation_recast setting hoperand]
        rfl
      · exact admitted_sign.mpr (hd.admitted.recast hoperand)

/-- An operand is an atom or a signed phrase, which operators of every power leave whole. -/
theorem operand_derived (hsub : Sound setting sub) (hlimit : depth < maxDepth)
    (h : operand setting sub ⟨ts, depth + 1⟩ = (.ok p, r')) :
    ∃ (c : Category) (d : Derivation c), Derived setting depth ⟨ts, depth + 1⟩ p r' d ∧
      ∀ power, c.Fits power := by
  have hone : depth + 1 ≤ maxDepth := hlimit
  unfold operand at h
  split at h
  · simp [fail] at h
  · next _ t rest hahead =>
    dsimp only at h hahead
    subst hahead
    split at h
    · next hkind =>
      split at h
      · next x hread =>
        simp only [Prod.mk.injEq, Except.ok.injEq] at h
        obtain ⟨rfl, rfl⟩ := h
        exact ⟨.atom, .number t x (.inl hkind) hread,
          ⟨rfl, rfl, rfl, ⟨hone, trivial⟩, below_atom _⟩, fun _ => trivial⟩
      · simp [fail] at h
    · next hkind =>
      split at h
      · next x hread =>
        simp only [Prod.mk.injEq, Except.ok.injEq] at h
        obtain ⟨rfl, rfl⟩ := h
        exact ⟨.atom, .number t x (.inr hkind) hread,
          ⟨rfl, rfl, rfl, ⟨hone, trivial⟩, below_atom _⟩, fun _ => trivial⟩
      · simp [fail] at h
    · next hkind =>
      simp only [Prod.mk.injEq, Except.ok.injEq] at h
      obtain ⟨rfl, rfl⟩ := h
      exact ⟨.atom, .answer t hkind, ⟨rfl, rfl, rfl, ⟨hone, trivial⟩, below_atom _⟩,
        fun _ => trivial⟩
    · next shape hkind =>
      obtain ⟨d, hd⟩ := bracketed_derived hsub hkind h
      exact ⟨.atom, d, hd, fun _ => trivial⟩
    · next op hkind =>
      obtain ⟨d, hd⟩ := signed_derived hsub hkind h
      exact ⟨.signed, d, hd, fun _ => trivial⟩
    · simp [fail] at h

theorem Derived.join {left right : Phrase} {r₀ r r₁ : Reader} {c c' l k r' : Category}
    {d : Derivation c} {e : Derivation c'} {d' : Derivation l} {e' : Derivation r'} {t : Token}
    {op : Operator} (hd : Derived setting depth r₀ left r d) (hahead : r.ahead = t :: ts)
    (hop : t.kind = .operator op)
    (he : Derived setting (depth + 1) { r with ahead := ts } right r₁ e)
    (hd' : d.Recasts d') (he' : e.Recasts e') (joins : l.Joins k op r')
    (hstop : Below k.stop r₁.ahead) (hheight : max left.height right.height + 1 ≤ maxHeight) :
    Derived setting depth r₀
      ⟨.binary op left.tree right.tree (some t), max left.height right.height + 1⟩ r₁
      (.join op t hop joins d' e') := by
  have hts : ts = e.tokens ++ r₁.ahead := he.ahead
  have hleft := hd.phrase
  have hright := he.phrase
  rw [← ofDerivation_recast setting hd'] at hleft
  rw [← ofDerivation_recast setting he'] at hright
  subst hleft hright
  refine ⟨?_, he.same_depth.trans hd.same_depth, rfl, ?_, hstop⟩
  · simp [Derivation.tokens, hd'.tokens, he'.tokens, hd.ahead, hahead, hts]
  · exact admitted_join.mpr ⟨hd.admitted.recast hd', he.admitted.recast he', hheight⟩

theorem extend_found (hsub : Sound setting sub) {power : Nat} {left : Phrase} {r r₀ : Reader}
    {c : Category} {d : Derivation c} (hd : Derived setting depth r₀ left r d)
    (hfit : c.Fits power) (hdepth : r.depth = depth + 1)
    (h : extend sub power left r = (.ok p, r')) : Found setting depth power r₀ p r' := by
  -- What is derived so far and the rest of the tokens stay those of `r₀`, operator by operator.
  fun_induction extend sub power left r generalizing c d with
  | case1 left r hahead =>
    simp only [Prod.mk.injEq, Except.ok.injEq] at h
    obtain ⟨rfl, rfl⟩ := h
    exact ⟨c, d, hd, hfit, hahead ▸ .nil, hahead ▸ .nil power⟩
  | case2 left r t ts hahead shape hkind =>
    simp only [Prod.mk.injEq, Except.ok.injEq] at h
    obtain ⟨rfl, rfl⟩ := h
    exact ⟨c, d, hd, hfit, hahead ▸ .closing hkind, hahead ▸ .closing hkind power⟩
  | case3 left r t ts hahead op hkind hlt =>
    simp only [Prod.mk.injEq, Except.ok.injEq] at h
    obtain ⟨rfl, rfl⟩ := h
    exact ⟨c, d, hd, hfit, hahead ▸ .operator hkind, hahead ▸ .operator hkind hlt⟩
  | case4 => simp at h
  | case5 => simp [fail] at h
  | case6 left r t ts hahead op hkind hle right r₁ hright height hheight _ =>
    rename_i ih
    obtain ⟨c', e, he, hfit', _, hbelow⟩ := hsub _ _ _ _ hright
    have hstop : op.leftPower < c.stop := hd.stop t (by simp [hahead]) op hkind
    obtain ⟨l, k, r', hl, hr, joins, hk, hkstop⟩ :=
      Category.exists_joins hstop (Nat.le_of_not_lt hle) hfit'
    obtain ⟨d', hd'⟩ := Derivation.exists_recast hl d
    obtain ⟨e', he'⟩ := Derivation.exists_recast hr e
    have hafter : Below k.stop r₁.ahead := by
      rcases hkstop with hk | hk <;> rw [hk]
      · exact hbelow
      · exact he.stop
    have hjoin := hd.join hahead hkind (hdepth ▸ he) hd' he' joins hafter (Nat.le_of_not_lt hheight)
    exact ih hjoin hk (he.same_depth.trans hdepth) h
  | case7 => simp [fail] at h

theorem phrase_found (hsub : Sound setting sub) {power : Nat} (hlimit : depth < maxDepth)
    (h : phrase setting sub power ⟨ts, depth + 1⟩ = (.ok p, r')) :
    Found setting depth power ⟨ts, depth + 1⟩ p r' := by
  unfold phrase at h
  split at h
  · simp at h
  · next left r hleft =>
    obtain ⟨c, d, hd, hfit⟩ := operand_derived hsub hlimit hleft
    exact extend_found hsub hd (hfit power) hd.same_depth h

end

/-- Whatever phrase is read at any level, it is derived from the tokens taken for it. -/
theorem climb_sound (setting : Setting) (levels : Nat) : Sound setting (climb setting levels) := by
  induction levels with
  | zero =>
    intro power r r' p h
    simp only [climb, failTooDeep] at h
    split at h <;> simp [fail] at h
  | succ levels ih =>
    intro power r r' p h
    simp only [climb] at h
    split at h
    · simp only [failTooDeep] at h
      split at h <;> simp [fail] at h
    · next hdepth =>
      rcases hphrase : phrase setting (climb setting levels) power r.enter with ⟨result, r₁⟩
      simp only [hphrase, Prod.mk.injEq] at h
      obtain ⟨rfl, rfl⟩ := h
      obtain ⟨c, d, hd, hfit, hend, hbelow⟩ := phrase_found ih (Nat.lt_of_not_le hdepth) hphrase
      have hsame : r₁.leave.depth = r.depth := by
        simp [Reader.leave, hd.same_depth]
      exact ⟨c, d, ⟨hd.ahead, hsame, hd.phrase, hd.admitted, hd.stop⟩, hfit, hend, hbelow⟩

end PromptCalc.Equation
