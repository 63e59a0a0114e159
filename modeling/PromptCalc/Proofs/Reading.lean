import PromptCalc.Equation
import PromptCalc.Proofs.DerivedPhrases
import PromptCalc.Proofs.Precedence

/-!
# Reading back derivations

A phrase that is derived by the grammar is found again by the reader, if it stands within the
limits, and is turned down as too deep otherwise. The first operand of a phrase can be extended by
the operators that follow it, so the phrase stands in front of any tokens that do not belong to it.
-/
namespace PromptCalc.Equation

/-- The tokens are at their end, or a closing bracket or an operator stands at their front. -/
def Ended (ts : List Token) : Prop :=
  ∀ t ∈ ts.head?, t.kind.isClosing = true ∨ ∃ op, t.kind = .operator op

/-- An operator at the front of the tokens has less than the given power. -/
def Below (power : Nat) (ts : List Token) : Prop :=
  ∀ t ∈ ts.head?, ∀ op, t.kind = .operator op → op.leftPower < power

theorem Ended.nil : Ended [] := by simp [Ended]

theorem Ended.closing {t : Token} {ts : List Token} {shape : Bracket}
    (h : t.kind = .closing shape) : Ended (t :: ts) := by
  simp [Ended, h, TokenKind.isClosing, TokenKind.opening?]

theorem Ended.operator {t : Token} {ts : List Token} {op : Operator}
    (h : t.kind = .operator op) : Ended (t :: ts) := by
  simp [Ended, h]

theorem Below.nil (power : Nat) : Below power [] := by simp [Below]

theorem Below.closing {t : Token} {ts : List Token} {shape : Bracket}
    (h : t.kind = .closing shape) (power : Nat) : Below power (t :: ts) := by
  simp [Below, h]

theorem Below.operator {t : Token} {ts : List Token} {op : Operator} {power : Nat}
    (h : t.kind = .operator op) (hlt : op.leftPower < power) : Below power (t :: ts) := by
  simp [Below, h, hlt]

theorem Below.mono {power higher : Nat} {ts : List Token} (h : Below power ts)
    (hle : power ≤ higher) : Below higher ts :=
  fun t ht op hop => Nat.lt_of_lt_of_le (h t ht op hop) hle

def TooDeep (o : Outcome) : Prop := ∃ span, o.1 = .error ⟨.tooDeep, span⟩

theorem tooDeep_failTooDeep (setting : Setting) (r : Reader) :
    TooDeep (failTooDeep setting r) := by
  unfold failTooDeep
  split
  · exact ⟨_, rfl⟩
  · exact ⟨_, rfl⟩

section Steps

variable {setting : Setting} {sub : Nat → Reader → Outcome} {r r' : Reader}

theorem bracketed_ok {inner : Phrase} {opener closer : Token} {shape : Bracket} {ts : List Token}
    (h : sub 0 r = (.ok inner, r')) (hahead : r'.ahead = closer :: ts)
    (hclose : closer.kind = .closing shape) :
    bracketed sub opener shape r = (.ok inner, { r' with ahead := ts }) := by
  simp [bracketed, h, hahead, hclose]

theorem bracketed_unclosed {inner : Phrase} {opener : Token} {shape : Bracket}
    (h : sub 0 r = (.ok inner, r')) (hahead : r'.ahead = []) :
    bracketed sub opener shape r = fail .unclosedBracket opener.span r' := by
  simp [bracketed, h, hahead]

theorem bracketed_mismatched {inner : Phrase} {opener closer : Token} {shape : Bracket}
    {ts : List Token} (h : sub 0 r = (.ok inner, r')) (hahead : r'.ahead = closer :: ts)
    (hclose : closer.kind ≠ .closing shape) :
    bracketed sub opener shape r = fail .mismatchedBracket closer.span { r' with ahead := ts } := by
  simp [bracketed, h, hahead, hclose]

theorem bracketed_error {e : EquationFault} {opener : Token} {shape : Bracket}
    (h : (sub 0 r).1 = .error e) : (bracketed sub opener shape r).1 = .error e := by
  rcases hsub : sub 0 r with ⟨result, r'⟩
  simp_all [bracketed]

theorem signed_ok {operand : Phrase} {sign : Token} {op : Operator} {power : Nat}
    (hop : op.signPower? = some power) (h : sub power r = (.ok operand, r')) :
    signed sub sign op r =
      (.ok ⟨.unary op operand.tree (some sign), operand.height + 1⟩, r') := by
  simp [signed, hop, h]

theorem signed_error {e : EquationFault} {sign : Token} {op : Operator} {power : Nat}
    (hop : op.signPower? = some power) (h : (sub power r).1 = .error e) :
    (signed sub sign op r).1 = .error e := by
  rcases hsub : sub power r with ⟨result, r'⟩
  simp_all [signed]

theorem phrase_ok {left : Phrase} {power : Nat} (h : operand setting sub r = (.ok left, r')) :
    phrase setting sub power r = extend sub power left r' := by
  simp [phrase, h]

theorem phrase_error {e : EquationFault} {power : Nat}
    (h : (operand setting sub r).1 = .error e) : (phrase setting sub power r).1 = .error e := by
  rcases hoperand : operand setting sub r with ⟨result, r'⟩
  simp_all [phrase]

theorem extend_of_ended {left : Phrase} {power : Nat} (hend : Ended r.ahead)
    (hbelow : Below power r.ahead) : extend sub power left r = (.ok left, r) := by
  rw [extend]
  split
  · rfl
  · next t ts hahead =>
    rw [hahead] at hend hbelow
    split
    · rfl
    · next op hop => rw [if_pos (hbelow t rfl op hop)]
    · next hclosing hoperator =>
      rcases hend t rfl with h | ⟨op, hop⟩
      · cases hkind : t.kind <;> simp_all [TokenKind.isClosing, TokenKind.opening?]
      · exact absurd hop (hoperator op)

theorem extend_operator {left right : Phrase} {power : Nat} {t : Token} {ts : List Token}
    {op : Operator} (hahead : r.ahead = t :: ts) (hop : t.kind = .operator op)
    (hle : power ≤ op.leftPower)
    (h : sub op.rightPower { r with ahead := ts } = (.ok right, r'))
    (hheight : max left.height right.height + 1 ≤ maxHeight) :
    extend sub power left r =
      extend sub power ⟨.binary op left.tree right.tree (some t),
        max left.height right.height + 1⟩ r' := by
  rw [extend]
  simp only [hahead, hop]
  rw [if_neg (by omega), h]
  exact dif_neg (by omega)

theorem extend_operator_error {left : Phrase} {power : Nat} {t : Token} {ts : List Token}
    {op : Operator} {e : EquationFault} (hahead : r.ahead = t :: ts) (hop : t.kind = .operator op)
    (hle : power ≤ op.leftPower)
    (h : (sub op.rightPower { r with ahead := ts }).1 = .error e) :
    (extend sub power left r).1 = .error e := by
  rcases hsub : sub op.rightPower { r with ahead := ts } with ⟨result, r'⟩
  rw [extend]
  simp only [hahead, hop]
  rw [if_neg (by omega), hsub]
  simp_all

theorem extend_operator_fails {left right : Phrase} {power : Nat} {t : Token} {ts : List Token}
    {op : Operator} (hahead : r.ahead = t :: ts) (hop : t.kind = .operator op)
    (hle : power ≤ op.leftPower)
    (h : sub op.rightPower { r with ahead := ts } = (.ok right, r'))
    (hheight : maxHeight < max left.height right.height + 1) :
    extend sub power left r = fail .tooDeep t.span r' := by
  rw [extend]
  simp only [hahead, hop]
  rw [if_neg (by omega), h]
  simp only [dif_pos hheight]

theorem extend_operator_tooHigh {left right : Phrase} {power : Nat} {t : Token} {ts : List Token}
    {op : Operator} (hahead : r.ahead = t :: ts) (hop : t.kind = .operator op)
    (hle : power ≤ op.leftPower)
    (h : sub op.rightPower { r with ahead := ts } = (.ok right, r'))
    (hheight : maxHeight < max left.height right.height + 1) :
    TooDeep (extend sub power left r) :=
  ⟨t.span, by rw [extend_operator_fails hahead hop hle h hheight]; rfl⟩

theorem extend_missing {left : Phrase} {power : Nat} {t : Token} {ts : List Token}
    (hahead : r.ahead = t :: ts) (hclosing : t.kind.isClosing = false)
    (hoperator : t.kind.operator? = none) :
    extend sub power left r = fail .missingOperator t.span r := by
  rw [extend, hahead]
  dsimp only
  split <;> simp_all [TokenKind.isClosing, TokenKind.opening?, TokenKind.operator?]

end Steps

/-- Inside the given number of other phrases, the phrase keeps within the limits. -/
def Admitted (setting : Setting) (depth : Nat) {c : Category} (d : Derivation c) : Prop :=
  depth + d.levels ≤ maxDepth ∧ (d.tree setting.answer).BinaryWithin maxHeight

def Phrase.ofDerivation (setting : Setting) {c : Category} (d : Derivation c) : Phrase :=
  ⟨d.tree setting.answer, (d.tree setting.answer).height⟩

section Limits

variable {setting : Setting} {depth : Nat}

theorem admitted_bracket {shape : Bracket} {opener closer : Token}
    {opens : opener.kind = .opening shape} {closes : closer.kind = .closing shape}
    {inner : Derivation .sum} :
    Admitted setting depth (.bracket shape opener closer opens closes inner) ↔
      Admitted setting (depth + 1) inner := by
  simp only [Admitted, Derivation.levels, Derivation.tree]
  rw [Nat.add_assoc, Nat.add_comm 1]

theorem admitted_sign {op : Operator} {t : Token} {names : t.kind = .operator op}
    {signs : op.signPower?.isSome} {operand : Derivation .sign} :
    Admitted setting depth (.sign op t names signs operand) ↔
      Admitted setting (depth + 1) operand := by
  simp only [Admitted, Derivation.levels, Derivation.tree, Expr.BinaryWithin]
  rw [Nat.add_assoc, Nat.add_comm 1]

theorem admitted_join {l c r : Category} {op : Operator} {t : Token}
    {names : t.kind = .operator op} {joins : l.Joins c op r} {left : Derivation l}
    {right : Derivation r} :
    Admitted setting depth (.join op t names joins left right) ↔
      Admitted setting depth left ∧ Admitted setting (depth + 1) right ∧
        max (Phrase.ofDerivation setting left).height (Phrase.ofDerivation setting right).height + 1
          ≤ maxHeight := by
  simp only [Admitted, Derivation.levels, Derivation.tree, Expr.BinaryWithin, Expr.height,
    Phrase.ofDerivation]
  constructor
  · rintro ⟨hlevels, hheight, hleft, hright⟩
    exact ⟨⟨by omega, hleft⟩, ⟨by omega, hright⟩, hheight⟩
  · rintro ⟨⟨hleft, hl⟩, ⟨hright, hr⟩, hheight⟩
    exact ⟨by omega, hheight, hl, hr⟩

end Limits

/-- In front of tokens that do not extend its last operand, the phrase is read up to them, from
where it may still be extended. Outside the limits it goes too deep. -/
def Opens (setting : Setting) {c : Category} (d : Derivation c) : Prop :=
  ∀ (levels depth power : Nat) (rest : List Token), maxDepth ≤ levels + depth → depth < maxDepth →
    c.Fits power → Ended rest → Below c.stop rest →
    let read := phrase setting (climb setting levels) power ⟨d.tokens ++ rest, depth + 1⟩
    (Admitted setting depth d → read =
      extend (climb setting levels) power (.ofDerivation setting d) ⟨rest, depth + 1⟩) ∧
    (¬ Admitted setting depth d → TooDeep read)

/-- A phrase that opens the tokens and is followed by none of its operators is read as a whole. -/
theorem Opens.climb {setting : Setting} {c : Category} {d : Derivation c} (h : Opens setting d)
    (levels depth power : Nat) (rest : List Token) (hlevels : maxDepth < levels + depth)
    (hfit : c.Fits power) (hend : Ended rest) (hbelow : Below power rest)
    (hstop : Below c.stop rest) :
    let read := climb setting levels power ⟨d.tokens ++ rest, depth⟩
    (Admitted setting depth d → read = (.ok (.ofDerivation setting d), ⟨rest, depth⟩)) ∧
    (¬ Admitted setting depth d → TooDeep read) := by
  have hpos := d.levels_pos
  cases levels with
  | zero =>
    refine ⟨fun had => ?_, fun _ => tooDeep_failTooDeep ..⟩
    have := had.1
    omega
  | succ levels =>
    simp only [Equation.climb]
    by_cases hdepth : maxDepth ≤ depth
    · rw [if_pos hdepth]
      refine ⟨fun had => ?_, fun _ => tooDeep_failTooDeep ..⟩
      have := had.1
      omega
    · rw [if_neg hdepth]
      obtain ⟨hread, hdeep⟩ := h levels depth power rest (by omega) (by omega) hfit hend hstop
      have hdone : extend (Equation.climb setting levels) power (.ofDerivation setting d)
          ⟨rest, depth + 1⟩ = (.ok (.ofDerivation setting d), ⟨rest, depth + 1⟩) :=
        extend_of_ended hend hbelow
      refine ⟨fun had => ?_, fun had => ?_⟩
      · simp only [Reader.enter, hread had, hdone, Reader.leave, Nat.add_sub_cancel]
      · obtain ⟨span, hspan⟩ := hdeep had
        exact ⟨span, hspan⟩

section Opening

variable {setting : Setting}

theorem opens_atom {d : Derivation .atom} {x : Float} {t : Token}
    (htokens : d.tokens = [t]) (htree : d.tree setting.answer = .value x (some t))
    (hlevels : d.levels = 1)
    (hread : ∀ (sub : Nat → Reader → Outcome) (rest : List Token) (depth : Nat),
      operand setting sub ⟨t :: rest, depth⟩ = (.ok ⟨.value x (some t), 1⟩, ⟨rest, depth⟩)) :
    Opens setting d := by
  intro levels depth power rest _ hdepth _ _ _
  refine ⟨fun _ => ?_, fun had => ?_⟩
  · rw [htokens, List.singleton_append, phrase_ok (hread ..)]
    simp only [Phrase.ofDerivation, htree, Expr.height]
  · refine absurd ⟨?_, ?_⟩ had
    · omega
    · simp only [htree, Expr.BinaryWithin]

theorem opens_bracket {shape : Bracket} {opener closer : Token}
    (opens : opener.kind = .opening shape) (closes : closer.kind = .closing shape)
    {inner : Derivation .sum} (ih : Opens setting inner) :
    Opens setting (.bracket shape opener closer opens closes inner) := by
  intro levels depth power rest hlevels hdepth _ _ _
  have hinner := ih.climb levels (depth + 1) 0 (closer :: rest) (by omega) (Nat.zero_le 1)
    (.closing closes) (.closing closes 0) (.closing closes _)
  have htokens : (Derivation.bracket shape opener closer opens closes inner).tokens ++ rest =
      opener :: (inner.tokens ++ closer :: rest) := by
    simp [Derivation.tokens]
  have hoperand : ∀ ahead, operand setting (climb setting levels) ⟨opener :: ahead, depth + 1⟩ =
      bracketed (climb setting levels) opener shape ⟨ahead, depth + 1⟩ := by
    intro ahead
    simp [operand, opens]
  rw [admitted_bracket, htokens]
  refine ⟨fun had => ?_, fun had => ?_⟩
  · refine phrase_ok ?_
    rw [hoperand, bracketed_ok (hinner.1 had) rfl closes]
    rfl
  · obtain ⟨span, hspan⟩ := hinner.2 had
    refine ⟨span, phrase_error ?_⟩
    rw [hoperand]
    exact bracketed_error hspan

theorem opens_sign {op : Operator} {t : Token} (names : t.kind = .operator op)
    (signs : op.signPower?.isSome) {operand : Derivation .sign} (ih : Opens setting operand) :
    Opens setting (.sign op t names signs operand) := by
  intro levels depth power rest hlevels hdepth _ hend hstop
  obtain ⟨least, hleast⟩ := Option.isSome_iff_exists.mp signs
  have hfive : least = 5 := Operator.eq_five_of_signPower? hleast
  have hinner := ih.climb levels (depth + 1) least rest (by omega)
    (by subst hfive; simp [Category.Fits]) hend (hfive ▸ hstop) hstop
  have hoperand : ∀ ahead, Equation.operand setting (climb setting levels) ⟨t :: ahead, depth + 1⟩ =
      signed (climb setting levels) t op ⟨ahead, depth + 1⟩ := by
    intro ahead
    simp [Equation.operand, names]
  rw [admitted_sign, Derivation.tokens, List.cons_append]
  refine ⟨fun had => ?_, fun had => ?_⟩
  · refine phrase_ok ?_
    rw [hoperand, signed_ok hleast (hinner.1 had)]
    rfl
  · obtain ⟨span, hspan⟩ := hinner.2 had
    refine ⟨span, phrase_error ?_⟩
    rw [hoperand]
    exact signed_error hleast hspan

theorem opens_join {l c r : Category} {op : Operator} {t : Token} (names : t.kind = .operator op)
    (joins : l.Joins c op r) {left : Derivation l} {right : Derivation r}
    (ihl : Opens setting left) (ihr : Opens setting right) :
    Opens setting (.join op t names joins left right) := by
  intro levels depth power rest hlevels hdepth hfit hend hstop
  have hle := joins.le_leftPower hfit
  have hleft := ihl levels depth power (t :: (right.tokens ++ rest)) hlevels hdepth
    (joins.fits_left hfit) (.operator names) (.operator names joins.leftPower_lt_stop)
  have hright := ihr.climb levels (depth + 1) op.rightPower rest (by omega) joins.fits_right hend
    (hstop.mono joins.stop_le_rightPower) (hstop.mono joins.stop_le_right)
  rw [admitted_join, Derivation.tokens, List.append_assoc, List.cons_append]
  -- The reader meets a limit in the left operand first, then in the right one, then in the height.
  by_cases hl : Admitted setting depth left
  · rw [hleft.1 hl]
    by_cases hr : Admitted setting (depth + 1) right
    · by_cases hheight : max (Phrase.ofDerivation setting left).height
          (Phrase.ofDerivation setting right).height + 1 ≤ maxHeight
      · exact ⟨fun _ => extend_operator rfl names hle (hright.1 hr) hheight,
          fun had => absurd ⟨hl, hr, hheight⟩ had⟩
      · exact ⟨fun had => absurd had.2.2 hheight,
          fun _ => extend_operator_tooHigh rfl names hle (hright.1 hr) (by omega)⟩
    · obtain ⟨span, hspan⟩ := hright.2 hr
      exact ⟨fun had => absurd had.2.1 hr,
        fun _ => ⟨span, extend_operator_error rfl names hle hspan⟩⟩
  · exact ⟨fun had => absurd had.1 hl, fun _ => hleft.2 hl⟩

/-- Every phrase that the grammar derives opens the tokens it stands in front of. -/
theorem opens (setting : Setting) {c : Category} (d : Derivation c) : Opens setting d := by
  induction d with
  | number t x numeral reads =>
    refine opens_atom rfl rfl rfl fun sub rest depth => ?_
    rcases numeral with h | h <;> simp [operand, h, reads]
  | answer t named =>
    refine opens_atom rfl rfl rfl fun sub rest depth => ?_
    simp [operand, named]
  | bracket shape opener closer opens closes inner ih => exact opens_bracket opens closes ih
  | sign op t names signs operand ih => exact opens_sign names signs ih
  | widen included phrase ih =>
    intro levels depth power rest hlevels hdepth hfit hend hstop
    exact ih levels depth power rest hlevels hdepth (included.fits hfit) hend
      (hstop.mono included.stop_le)
  | join op t names joins left right ihl ihr => exact opens_join names joins ihl ihr

end Opening

end PromptCalc.Equation
