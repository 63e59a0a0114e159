import PromptCalc.Proofs.Consistency
import PromptCalc.Proofs.Parsing

/-!
# Conservation of tokens

Every node of a tree that is parsed was read from a token of its text that says what the node is. No
token inside the quotes is lost, repeated or moved, except that brackets have no node.
-/
namespace PromptCalc

/-- Every node has the token that it was read from: a numeral with its number, `ans` for the given
number, or the operator of the node, which before its operand is a sign. -/
inductive Expr.ReadFrom (ans : Float) : Expr → Prop where
  | number {t : Token} {x : Float} : t.kind = .int ∨ t.kind = .float →
      Number.read? t.literal = some x → ReadFrom ans (.value x (some t))
  | answer {t : Token} : t.kind = .answer → ReadFrom ans (.value ans (some t))
  | sign {t : Token} {op : Operator} {operand : Expr} : t.kind.operator? = some op →
      op = .plus ∨ op = .minus → ReadFrom ans operand → ReadFrom ans (.unary op operand (some t))
  | join {t : Token} {op : Operator} {left right : Expr} : t.kind.operator? = some op →
      ReadFrom ans left → ReadFrom ans right → ReadFrom ans (.binary op left right (some t))

theorem Operator.eq_plus_or_minus {op : Operator} (h : op.signPower?.isSome) :
    op = .plus ∨ op = .minus := by
  cases op <;> simp_all [signPower?]

theorem Derivation.readFrom_tree {c : Category} (d : Derivation c) (ans : Float) :
    (d.tree ans).ReadFrom ans := by
  induction d with
  | number t x numeral reads => exact .number numeral reads
  | answer t named => exact .answer named
  | bracket shape opener closer opens closes inner ih => exact ih
  | sign op t names signs operand ih =>
    exact .sign (names ▸ rfl) (Operator.eq_plus_or_minus signs) ih
  | widen included phrase ih => exact ih
  | join op t names joins left right ihl ihr => exact .join (names ▸ rfl) ihl ihr

namespace Session

variable {s s' : Session} {text : String} {inner : List Token} {closing : Token} {tree : Expr}

theorem tokens_parse (h : Encloses text inner closing) :
    (s.parse text).2.stream.tokens = inner := by
  have hprompt : (s.input text).readPrompt.2 = s.loaded text inner closing := by
    rw [s.readPrompt_of_encloses h]
    split <;> rfl
  rcases s.parse_snd text with hstate | ⟨r, hstate⟩ <;> rw [hstate, hprompt]
  · rfl
  · rfl

/-- The nodes of a tree that is parsed were read from the tokens between the quotes: from all of
them but the brackets, each once and in their order. -/
theorem tokens_of_parse (h : s.parse text = (.ok tree, s')) :
    tree.ReadFrom s.answer ∧
    tree.tokens = s'.stream.tokens.filter (!Nesting.isBracket ·) ∧
    ∃ closing, Encloses text s'.stream.tokens closing := by
  have hparse : (s.parse text).1 = .ok tree := by rw [h]
  obtain ⟨d, closing, hencloses, -, rfl⟩ := exists_derivation_of_parse hparse
  have htokens : s'.stream.tokens = d.tokens := by
    have hkept := tokens_parse (s := s) hencloses
    rwa [h] at hkept
  rw [htokens]
  exact ⟨d.readFrom_tree s.answer, d.tokens_tree s.answer, closing, hencloses⟩

/-- Six nodes, with a sign and `ans`, from eight tokens. -/
theorem tokens_of_parse_signed :
    ∃ tree s', new.parse "calc '[2.5+ans]*-1'" = (.ok tree, s') ∧ tree.ReadFrom 0 ∧
      tree.tokens = s'.stream.tokens.filter (!Nesting.isBracket ·) ∧
      s'.stream.tokens.length = 8 ∧
      tree.tokens.map Token.literal = ["2.5", "+", "ans", "*", "-", "1"] := by
  obtain ⟨tree, s', hparse, hlength, hliterals⟩ : ∃ tree s',
      new.parse "calc '[2.5+ans]*-1'" = (.ok tree, s') ∧ s'.stream.tokens.length = 8 ∧
        tree.tokens.map Token.literal = ["2.5", "+", "ans", "*", "-", "1"] :=
    ⟨_, _, by with_unfolding_all rfl, by with_unfolding_all rfl, by with_unfolding_all rfl⟩
  obtain ⟨hread, htokens, -⟩ := tokens_of_parse hparse
  exact ⟨tree, s', hparse, hread, htokens, hlength, hliterals⟩

end Session

end PromptCalc
