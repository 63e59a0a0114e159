import PromptCalc.Grammar
import PromptCalc.Nesting

/-!
# Derived phrases

What a derivation says of its tree and its tokens. A tree is a row of unary nodes over a tree whose
root is none; each of those takes a level of the phrase, and a binary node takes one for its right
operand. The nodes keep the tokens of the phrase but its brackets, in their order and each once. The
check of the brackets passes over the phrase and comes out of it with the brackets that were open
before.
-/
namespace PromptCalc

namespace Expr

/-- Every binary node is the root of a tree of at most the given height. -/
def BinaryWithin (limit : Nat) : Expr → Prop
  | value .. => True
  | unary _ operand _ => operand.BinaryWithin limit
  | binary op left right token =>
    (binary op left right token).height ≤ limit ∧ left.BinaryWithin limit ∧
      right.BinaryWithin limit

instance BinaryWithin.decidable (limit : Nat) : (e : Expr) → Decidable (e.BinaryWithin limit)
  | value .. => inferInstanceAs (Decidable True)
  | unary _ operand _ => BinaryWithin.decidable limit operand
  | binary op left right token =>
    have := BinaryWithin.decidable limit left
    have := BinaryWithin.decidable limit right
    inferInstanceAs (Decidable ((binary op left right token).height ≤ limit ∧
      left.BinaryWithin limit ∧ right.BinaryWithin limit))

/-- The unary nodes at the root of a tree. -/
def signs : Expr → Nat
  | unary _ operand _ => operand.signs + 1
  | _ => 0

/-- The tree under them. -/
def unsigned : Expr → Expr
  | unary _ operand _ => operand.unsigned
  | e => e

theorem height_pos (e : Expr) : 0 < e.height := by
  cases e <;> simp [height]

theorem binaryWithin_of_height_le {limit : Nat} {e : Expr} (h : e.height ≤ limit) :
    e.BinaryWithin limit := by
  induction e with
  | value => trivial
  | unary op operand token ih => exact ih (by simp only [height] at h; omega)
  | binary op left right token ihl ihr =>
    have hh := h
    simp only [height] at hh
    exact ⟨h, ihl (by omega), ihr (by omega)⟩

theorem BinaryWithin.mono {limit higher : Nat} {e : Expr} (h : e.BinaryWithin limit)
    (hle : limit ≤ higher) : e.BinaryWithin higher := by
  induction e with
  | value => trivial
  | unary op operand token ih => exact ih h
  | binary op left right token ihl ihr => exact ⟨Nat.le_trans h.1 hle, ihl h.2.1, ihr h.2.2⟩

theorem height_eq_signs_add (e : Expr) : e.height = e.signs + e.unsigned.height := by
  induction e with
  | unary op operand token ih =>
    simp only [height, signs, unsigned, ih]
    omega
  | _ => simp [signs, unsigned]

theorem unsigned_height_le {limit : Nat} {e : Expr} (hpos : 0 < limit) (h : e.BinaryWithin limit) :
    e.unsigned.height ≤ limit := by
  induction e with
  | value => exact hpos
  | unary op operand token ih => exact ih h
  | binary op left right token => exact h.1

end Expr

namespace Derivation

variable {c : Category}

theorem levels_pos (d : Derivation c) : 0 < d.levels := by
  have := d.nesting_lt_levels
  omega

/-- Unary nodes at the root take one level each, and a tree of more than one node under them takes
two levels at least. -/
theorem signs_lt_levels (d : Derivation c) (ans : Float) :
    (d.tree ans).signs < d.levels ∧
      (1 < (d.tree ans).unsigned.height → (d.tree ans).signs + 1 < d.levels) := by
  induction d with
  | number | answer => simp [tree, Expr.signs, Expr.unsigned, Expr.height, levels]
  | bracket shape opener closer opens closes inner ih =>
    simp only [tree, levels]
    exact ⟨by omega, fun h => by have := ih.2 h; omega⟩
  | sign op t names signs operand ih =>
    simp only [tree, levels, Expr.signs, Expr.unsigned]
    exact ⟨by omega, fun h => by have := ih.2 h; omega⟩
  | widen included phrase ih => exact ih
  | join op t names joins left right ihl ihr =>
    have hleft := left.levels_pos
    have hright := right.levels_pos
    simp only [tree, levels, Expr.signs]
    omega

end Derivation

namespace Expr

/-- The tokens that the nodes were read from, every operator between its operands. -/
def tokens : Expr → List Token
  | value _ token => token.toList
  | unary _ operand token => token.toList ++ operand.tokens
  | binary _ left right token => left.tokens ++ (token.toList ++ right.tokens)

/-- The numbers of a tree, from left to right, with the tokens they were read from. -/
def leaves : Expr → List (Float × Option Token)
  | value number token => [(number, token)]
  | unary _ operand _ => operand.leaves
  | binary _ left right _ => left.leaves ++ right.leaves

theorem mem_tokens_of_evaluate {e : Expr} {z : ZeroDivision} {span : Span}
    (h : e.evaluate = .error z) (hspan : z.span = some span) : ∃ t ∈ e.tokens, span = t.span := by
  induction e with
  | value => cases h
  | unary op operand token ih =>
    simp only [evaluate] at h
    split at h
    · next z' hoperand =>
      obtain rfl := Except.error.inj h
      obtain ⟨t, ht, rfl⟩ := ih hoperand
      exact ⟨t, List.mem_append_right _ ht, rfl⟩
    · split at h
      · cases h
      · obtain rfl := Except.error.inj h
        cases hspan
  | binary op left right token ihl ihr =>
    simp only [evaluate] at h
    split at h
    · next z' hleft =>
      obtain rfl := Except.error.inj h
      obtain ⟨t, ht, rfl⟩ := ihl hleft
      exact ⟨t, List.mem_append_left _ ht, rfl⟩
    · split at h
      · next z' hright =>
        obtain rfl := Except.error.inj h
        obtain ⟨t, ht, rfl⟩ := ihr hright
        exact ⟨t, List.mem_append_right _ (List.mem_append_right _ ht), rfl⟩
      · split at h
        · cases h
        · obtain rfl := Except.error.inj h
          obtain ⟨t, rfl, rfl⟩ := Option.map_eq_some_iff.mp hspan
          exact ⟨t, List.mem_append_right _ (List.mem_append_left _ List.mem_cons_self), rfl⟩

end Expr

namespace Derivation

variable {c : Category}

/-- The nodes of the tree keep all the tokens of the phrase but its brackets. -/
theorem tokens_tree (d : Derivation c) (ans : Float) :
    (d.tree ans).tokens = d.tokens.filter (!Nesting.isBracket ·) := by
  induction d with
  | number t x numeral reads =>
    have hother : Nesting.isBracket t = false := by
      rcases numeral with h | h <;> rw [Nesting.isBracket, h] <;> rfl
    simp [tree, tokens, Expr.tokens, hother]
  | answer t named =>
    have hother : Nesting.isBracket t = false := by
      rw [Nesting.isBracket, named]
      rfl
    simp [tree, tokens, Expr.tokens, hother]
  | bracket shape opener closer opens closes inner ih =>
    simp [tree, tokens, ih, Nesting.isBracket_opening opens, Nesting.isBracket_closing closes]
  | sign op t names signs operand ih =>
    simp [tree, tokens, Expr.tokens, ih, Nesting.isBracket_operator names]
  | widen included phrase ih => exact ih
  | join op t names joins left right ihl ihr =>
    simp [tree, tokens, Expr.tokens, ihl, ihr, Nesting.isBracket_operator names]

theorem tokens_tree_sublist (d : Derivation c) (ans : Float) :
    (d.tree ans).tokens.Sublist d.tokens :=
  d.tokens_tree ans ▸ List.filter_sublist

theorem eq_answer_of_mem_leaves (d : Derivation c) {ans x : Float} {t : Token}
    (h : (x, some t) ∈ (d.tree ans).leaves) (ht : t.kind = .answer) : x = ans := by
  induction d with
  | number u y numeral reads =>
    obtain ⟨-, rfl⟩ : x = y ∧ t = u := by simpa [tree, Expr.leaves] using h
    rcases numeral with hnumeral | hnumeral <;> cases ht.symm.trans hnumeral
  | answer u named => exact (by simpa [tree, Expr.leaves] using h : x = ans ∧ t = u).1
  | bracket shape opener closer opens closes inner ih => exact ih h
  | sign op u names signs operand ih => exact ih h
  | widen included phrase ih => exact ih h
  | join op u names joins left right ihl ihr =>
    rcases List.mem_append.mp h with h | h
    · exact ihl h
    · exact ihr h

end Derivation

namespace Nesting

section Steps

variable {previous : Option TokenKind} {openers : List Token} {t : Token} {ts : List Token}

theorem faultAfter_other (hopen : t.kind.isOpening = false) (hclose : t.kind.isClosing = false) :
    faultAfter previous openers (t :: ts) = faultAfter (some t.kind) openers ts := by
  rw [faultAfter]
  split <;> simp_all [TokenKind.isOpening, TokenKind.isClosing, TokenKind.closing?,
    TokenKind.opening?]

theorem faultAfter_opening {shape : Bracket} (h : t.kind = .opening shape) :
    faultAfter previous openers (t :: ts) = faultAfter (some t.kind) (t :: openers) ts := by
  rw [faultAfter, h]

theorem faultAfter_closing {shape : Bracket} {opener : Token}
    (hprevious : previous ≠ some (.opening shape)) (hopen : opener.kind = .opening shape)
    (hclose : t.kind = .closing shape) :
    faultAfter previous (opener :: openers) (t :: ts) = faultAfter (some t.kind) openers ts := by
  rw [faultAfter]
  simp only [hclose, if_neg hprevious, hopen, if_true]

end Steps

/-- After a derived phrase the check goes on as after its last token, which opens no bracket. -/
theorem exists_faultAfter_derivation {c : Category} (d : Derivation c) :
    ∃ kind : TokenKind, kind.isOpening = false ∧
      ∀ (previous : Option TokenKind) (openers rest : List Token),
        faultAfter previous openers (d.tokens ++ rest) = faultAfter (some kind) openers rest := by
  induction d with
  | number t x numeral reads =>
    have hkind : t.kind.isOpening = false ∧ t.kind.isClosing = false := by
      rcases numeral with h | h <;> rw [h] <;> decide
    exact ⟨t.kind, hkind.1, fun _ _ _ => faultAfter_other hkind.1 hkind.2⟩
  | answer t named =>
    have hkind : t.kind.isOpening = false ∧ t.kind.isClosing = false := by rw [named]; decide
    exact ⟨t.kind, hkind.1, fun _ _ _ => faultAfter_other hkind.1 hkind.2⟩
  | bracket shape opener closer opens closes inner ih =>
    obtain ⟨kind, hkind, hinner⟩ := ih
    refine ⟨closer.kind, by rw [closes]; rfl, fun previous openers rest => ?_⟩
    have hne : some kind ≠ some (.opening shape) := by
      intro h
      rw [Option.some.inj h] at hkind
      simp [TokenKind.isOpening, TokenKind.closing?] at hkind
    simp only [Derivation.tokens, List.append_assoc, List.cons_append, List.nil_append]
    rw [faultAfter_opening opens, hinner, faultAfter_closing hne opens closes]
  | sign op t names signs operand ih =>
    obtain ⟨kind, hkind, hoperand⟩ := ih
    have ht : t.kind.isOpening = false ∧ t.kind.isClosing = false := by rw [names]; exact ⟨rfl, rfl⟩
    refine ⟨kind, hkind, fun previous openers rest => ?_⟩
    rw [Derivation.tokens, List.cons_append, faultAfter_other ht.1 ht.2, hoperand]
  | widen included phrase ih => exact ih
  | join op t names joins left right ihl ihr =>
    obtain ⟨_, _, hleft⟩ := ihl
    obtain ⟨kind, hkind, hright⟩ := ihr
    have ht : t.kind.isOpening = false ∧ t.kind.isClosing = false := by rw [names]; exact ⟨rfl, rfl⟩
    refine ⟨kind, hkind, fun previous openers rest => ?_⟩
    rw [Derivation.tokens, List.append_assoc, hleft, List.cons_append,
      faultAfter_other ht.1 ht.2, hright]

theorem fault?_derivation {c : Category} (d : Derivation c) : fault? d.tokens = none := by
  obtain ⟨kind, _, h⟩ := exists_faultAfter_derivation d
  have hall := h none [] []
  rw [List.append_nil] at hall
  rw [fault?, hall]
  rfl

end Nesting

end PromptCalc
