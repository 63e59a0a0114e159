import PromptCalc.Proofs.Conservation
import PromptCalc.Proofs.Layout
import PromptCalc.Proofs.Lossless
import PromptCalc.Proofs.StackMachine

/-!
# Where a division by zero is reported

A prompt that has a tree fails exactly if a division in the tree has a right operand of the value
zero. The first of these divisions is reported, where operands come before their operator, and the
place is that of its slash between the quotes.
-/
namespace PromptCalc

namespace Expr

def DividesByZero : Expr → Prop
  | binary .divide _ right _ => ∃ y, right.evaluate = .ok y ∧ Number.IsZero y
  | _ => False

/-- The node divides by zero, and none of the nodes before it does. -/
inductive FirstDividing (node : Expr) : List Expr → Prop where
  | here {rest : List Expr} : node.DividesByZero → FirstDividing node (node :: rest)
  | later {n : Expr} {rest : List Expr} : ¬ n.DividesByZero → FirstDividing node rest →
      FirstDividing node (n :: rest)

variable {e node other : Expr} {nodes rest : List Expr} {ans : Float}

theorem dividesByZero_binary {op : Operator} {left right : Expr} {token : Option Token}
    {x y : Float} (hright : right.evaluate = .ok y) :
    (binary op left right token).DividesByZero ↔ op.apply? x y = none := by
  rw [Operator.apply?_eq_none_iff]
  cases op <;> simp [DividesByZero, hright]

namespace FirstDividing

theorem mem (h : FirstDividing node nodes) : node ∈ nodes ∧ node.DividesByZero := by
  induction h with
  | here hnode => exact ⟨List.mem_cons_self, hnode⟩
  | later _ _ ih => exact ⟨List.mem_cons_of_mem _ ih.1, ih.2⟩

theorem append_right (h : FirstDividing node nodes) (rest : List Expr) :
    FirstDividing node (nodes ++ rest) := by
  induction h with
  | here hnode => exact .here hnode
  | later hn _ ih => exact .later hn ih

theorem append_left (hnodes : ∀ n ∈ nodes, ¬ n.DividesByZero) (h : FirstDividing node rest) :
    FirstDividing node (nodes ++ rest) := by
  induction nodes with
  | nil => exact h
  | cons n nodes ih =>
    obtain ⟨hn, hnodes⟩ := List.forall_mem_cons.mp hnodes
    exact .later hn (ih hnodes)

theorem unique (h : FirstDividing node nodes) (h' : FirstDividing other nodes) : node = other := by
  induction h with
  | here hnode =>
    cases h' with
    | here => rfl
    | later hnot => exact absurd hnode hnot
  | later hnot _ ih =>
    cases h' with
    | here hother => exact absurd hother hnot
    | later _ h' => exact ih h'

end FirstDividing

theorem mem_tokens_of_mem_nodes {t : Token} (h : node ∈ e.nodes) (ht : node.token? = some t) :
    t ∈ e.tokens := by
  induction e with
  | value x token =>
    obtain rfl := List.mem_singleton.mp h
    obtain rfl : token = some t := ht
    exact List.mem_cons_self
  | unary op operand token ih =>
    rw [nodes, List.mem_append, List.mem_singleton] at h
    rcases h with h | rfl
    · exact List.mem_append_right _ (ih h)
    · obtain rfl : token = some t := ht
      exact List.mem_cons_self
  | binary op left right token ihl ihr =>
    rw [nodes, List.mem_append, List.mem_append, List.mem_singleton] at h
    rcases h with (h | h) | rfl
    · exact List.mem_append_left _ (ihl h)
    · exact List.mem_append_right _ (List.mem_append_right _ (ihr h))
    · obtain rfl : token = some t := ht
      exact List.mem_append_right _ List.mem_cons_self

theorem ReadFrom.of_mem_nodes (h : e.ReadFrom ans) (hnode : node ∈ e.nodes) :
    node.ReadFrom ans := by
  induction h with
  | number numeral reads =>
    obtain rfl := List.mem_singleton.mp hnode
    exact .number numeral reads
  | answer named =>
    obtain rfl := List.mem_singleton.mp hnode
    exact .answer named
  | sign names signs operand ih =>
    rw [nodes, List.mem_append, List.mem_singleton] at hnode
    rcases hnode with hnode | rfl
    · exact ih hnode
    · exact .sign names signs operand
  | join names left right ihl ihr =>
    rw [nodes, List.mem_append, List.mem_append, List.mem_singleton] at hnode
    rcases hnode with (hnode | hnode) | rfl
    · exact ihl hnode
    · exact ihr hnode
    · exact .join names left right

/-- A tree that was read from a text has a value if no node divides by zero. Otherwise it fails at
the first one that does. -/
theorem ReadFrom.evaluate_cases (h : e.ReadFrom ans) :
    ((∃ x, e.evaluate = .ok x) ∧ ∀ node ∈ e.nodes, ¬ node.DividesByZero) ∨
      ∃ left right t, FirstDividing (binary .divide left right (some t)) e.nodes ∧
        e.evaluate = .error ⟨some t.span⟩ := by
  induction h with
  | number | answer => exact .inl ⟨⟨_, rfl⟩, by simp [nodes, DividesByZero]⟩
  | @sign t op operand names signs _ ih =>
    rcases ih with ⟨⟨x, hx⟩, hnone⟩ | ⟨left, right, u, hfirst, herror⟩
    · have hsign : op.signPower?.isSome := by rcases signs with rfl | rfl <;> rfl
      obtain ⟨z, hz⟩ := Operator.exists_result_of_sign hsign 0 x
      refine .inl ⟨⟨z, by simp only [evaluate, hx, hz]⟩, fun node hnode => ?_⟩
      rw [nodes, List.mem_append, List.mem_singleton] at hnode
      rcases hnode with hnode | rfl
      · exact hnone node hnode
      · exact id
    · exact .inr ⟨left, right, u, hfirst.append_right _, by simp only [evaluate, herror]⟩
  | @join t op left right names _ _ ihl ihr =>
    -- The operands are evaluated in the order of the nodes, and the operator after both.
    rcases ihl with ⟨⟨x, hx⟩, hleft⟩ | ⟨l, r, u, hfirst, herror⟩
    · rcases ihr with ⟨⟨y, hy⟩, hright⟩ | ⟨l, r, u, hfirst, herror⟩
      · have hoperands : ∀ node ∈ left.nodes ++ right.nodes, ¬ node.DividesByZero := by
          intro node hnode
          exact (List.mem_append.mp hnode).elim (hleft node) (hright node)
        have hroot : (binary op left right (some t)).DividesByZero ↔ op.apply? x y = none :=
          dividesByZero_binary hy
        cases hz : op.apply? x y with
        | some z =>
          refine .inl ⟨⟨z, by simp only [evaluate, hx, hy, hz]⟩, fun node hnode => ?_⟩
          rw [nodes, List.mem_append, List.mem_singleton] at hnode
          rcases hnode with hnode | rfl
          · exact hoperands node hnode
          · rw [hroot, hz]
            exact Option.some_ne_none z
        | none =>
          obtain ⟨rfl, -⟩ := Operator.apply?_eq_none_iff.mp hz
          exact .inr ⟨left, right, t, .append_left hoperands (.here (hroot.mpr hz)),
            by simp only [evaluate, hx, hy, hz, Option.map_some]⟩
      · exact .inr ⟨l, r, u, (FirstDividing.append_left hleft hfirst).append_right _,
          by simp only [evaluate, hx, herror]⟩
    · exact .inr ⟨l, r, u, (hfirst.append_right _).append_right _,
        by simp only [evaluate, herror]⟩

end Expr

/-- The token is a slash, one byte of the text between the two quotes of the prompt. -/
structure Token.IsQuotedSlash (t : Token) (text : String) : Prop where
  kind : t.kind = .operator .divide
  size : t.span.size = 1
  byte : text.toByteArray.extract t.span.start t.span.stop = "/".toByteArray
  quoted : ∃ command opening closing inner,
    tokenize text = command :: opening :: (inner ++ [closing]) ∧
      command.kind = .command ∧ opening.kind = .quote ∧ closing.kind = .quote ∧
      opening.span.stop ≤ t.span.start ∧ t.span.stop ≤ closing.span.start

theorem Encloses.isQuotedSlash {text : String} {inner : List Token} {closing t : Token}
    (h : Encloses text inner closing) (ht : t ∈ inner) (hkind : t.kind = .operator .divide) :
    t.IsQuotedSlash text := by
  have hmem : t ∈ tokenize text := h.mem_tokenize ht
  have hcut : t.IsCutFrom text := (Lexer.isPlaced_ofText text).isCutFrom_of_mem hmem
  obtain ⟨hliteral, hsize⟩ := Token.literal_of_symbol (c := '/') hmem (hkind ▸ rfl)
  obtain ⟨command, opening, htokens, hcommand, hopening, hclosing, -⟩ := h
  have horder : (tokenize text).Pairwise fun t u => t.span.stop ≤ u.span.start :=
    tokenize_eq_scan text ▸ (interleaved_scan 0 text.toList).pairwise
  rw [htokens, List.pairwise_cons, List.pairwise_cons, List.pairwise_append] at horder
  obtain ⟨-, hbehind, -, -, hbefore⟩ := horder
  exact ⟨hkind, hsize, by rw [hcut.bytes, hliteral]; rfl, command, opening, closing, inner, htokens,
    hcommand, hopening, hclosing, hbehind t (List.mem_append_left _ ht),
    hbefore t ht closing List.mem_cons_self⟩

namespace Session

variable {s : Session} {text source : String} {span : Option Span} {tree : Expr}

theorem parse_ne_zeroDivision : (s.parse text).1 ≠ .error ⟨.zeroDivision span, source⟩ := by
  intro h
  unfold parse at h
  rcases hprompt : (s.input text).readPrompt with ⟨e | u, s'⟩ <;> rw [hprompt] at h
  · have hverdict := readPrompt_eq_iff.mp (congrArg Prod.fst hprompt)
    obtain rfl := Except.error.inj h
    generalize tokenize text = ts at hverdict
    cases hverdict
  · dsimp only [readWhole, readEquation] at h
    split at h
    · next hread =>
      split at hread <;> cases hread
      cases h
    · split at h <;> cases h

theorem evaluate_eq_zeroDivision_iff :
    (s.evaluate text).1 = .error ⟨.zeroDivision span, source⟩ ↔
      ∃ tree, (s.parse text).1 = .ok tree ∧ tree.evaluate = .error ⟨span⟩ ∧ source = text := by
  rw [evaluate_fst]
  cases hparse : (s.parse text).1 with
  | error e =>
    have hne : (s.parse text).1 ≠ .error ⟨.zeroDivision span, source⟩ := parse_ne_zeroDivision
    rw [hparse] at hne
    simpa using hne
  | ok tree =>
    dsimp only
    cases hevaluate : tree.evaluate with
    | ok x => simp [hevaluate]
    | error z =>
      obtain ⟨place⟩ := z
      simp [hevaluate, eq_comm]

theorem isQuotedSlash_of_mem_nodes {left right : Expr} {t : Token}
    (h : (s.parse text).1 = .ok tree)
    (hnode : Expr.binary .divide left right (some t) ∈ tree.nodes) : t.IsQuotedSlash text := by
  obtain ⟨d, closing, hencloses, -, rfl⟩ := exists_derivation_of_parse h
  have hmem : t ∈ d.tokens :=
    (d.tokens_tree_sublist s.answer).subset (Expr.mem_tokens_of_mem_nodes hnode rfl)
  refine hencloses.isQuotedSlash hmem ?_
  cases (d.readFrom_tree s.answer).of_mem_nodes hnode with
  | join names => cases hkind : t.kind <;> simp_all [TokenKind.operator?]

theorem evaluate_cases_of_parse (h : (s.parse text).1 = .ok tree) :
    ((∃ x, tree.evaluate = .ok x) ∧ ∀ node ∈ tree.nodes, ¬ node.DividesByZero) ∨
      ∃ left right t, Expr.FirstDividing (.binary .divide left right (some t)) tree.nodes ∧
        tree.evaluate = .error ⟨some t.span⟩ := by
  obtain ⟨d, closing, -, -, rfl⟩ := exists_derivation_of_parse h
  exact (d.readFrom_tree s.answer).evaluate_cases

/-- A prompt fails with a division by zero exactly if it has a tree in which a node divides by zero.
What is reported is the slash of the first such node. -/
theorem evaluate_divides_by_zero (s : Session) (text : String) :
    (∀ span source, (s.evaluate text).1 = .error ⟨.zeroDivision span, source⟩ ↔
      ∃ tree left right t, (s.parse text).1 = .ok tree ∧
        Expr.FirstDividing (.binary .divide left right (some t)) tree.nodes ∧
        t.IsQuotedSlash text ∧ span = some t.span ∧ source = text) ∧
    ((∃ span source, (s.evaluate text).1 = .error ⟨.zeroDivision span, source⟩) ↔
      ∃ tree, (s.parse text).1 = .ok tree ∧ ∃ node ∈ tree.nodes, node.DividesByZero) := by
  refine ⟨fun span source => ?_, ?_⟩
  · rw [evaluate_eq_zeroDivision_iff]
    constructor
    · rintro ⟨tree, hparse, hevaluate, rfl⟩
      rcases evaluate_cases_of_parse hparse with ⟨⟨x, hx⟩, -⟩ | ⟨left, right, t, hfirst, herror⟩
      · rw [hx] at hevaluate
        cases hevaluate
      · have hspan := congrArg ZeroDivision.span (Except.error.inj (herror.symm.trans hevaluate))
        exact ⟨tree, left, right, t, hparse, hfirst,
          isQuotedSlash_of_mem_nodes hparse hfirst.mem.1, hspan.symm, rfl⟩
    · rintro ⟨tree, left, right, t, hparse, hfirst, -, rfl, rfl⟩
      refine ⟨tree, hparse, ?_, rfl⟩
      rcases evaluate_cases_of_parse hparse with ⟨-, hnone⟩ | ⟨left', right', u, hfirst', herror⟩
      · exact absurd hfirst.mem.2 (hnone _ hfirst.mem.1)
      · cases hfirst.unique hfirst'
        exact herror
  · simp only [evaluate_eq_zeroDivision_iff]
    constructor
    · rintro ⟨span, source, tree, hparse, hevaluate, -⟩
      rcases evaluate_cases_of_parse hparse with ⟨⟨x, hx⟩, -⟩ | ⟨left, right, t, hfirst, -⟩
      · rw [hx] at hevaluate
        cases hevaluate
      · exact ⟨tree, hparse, _, hfirst.mem⟩
    · rintro ⟨tree, hparse, node, hnode, hzero⟩
      rcases evaluate_cases_of_parse hparse with ⟨-, hnone⟩ | ⟨left, right, t, -, herror⟩
      · exact absurd hzero (hnone node hnode)
      · exact ⟨_, text, tree, hparse, herror, rfl⟩

/-- Both divisions are by zero, and the one inside the bracket comes first. -/
example : (new.evaluate "calc '(1/-0)/0'").1 =
    .error ⟨.zeroDivision (some ⟨8, 1⟩), "calc '(1/-0)/0'"⟩ := by
  decide +kernel

end Session

end PromptCalc
