import PromptCalc.Proofs.DerivedPhrases
import PromptCalc.Proofs.Lexing
import PromptCalc.Expr

/-!
# Substituting an equation for the last answer

In place of every `ans` an equation can stand in brackets. The tokens stay the same apart from that,
and so does what the check of the brackets says of them.
-/
namespace PromptCalc

/-- The characters of an equation with the inner ones, in brackets, for every `ans`. -/
def substitute (inner : List Char) : List Char → List Char
  | [] => []
  | c :: cs =>
    if isBlank c then c :: substitute inner cs
    else
      let lexeme := Lexeme.cut c cs
      if lexeme.kind = .answer then
        '(' :: (inner ++ ')' :: substitute inner lexeme.rest)
      else lexeme.chars ++ substitute inner lexeme.rest
termination_by cs => cs.length
decreasing_by
  · exact Nat.lt_succ_self _
  · exact Lexeme.cut_rest_length_lt c cs
  · exact Lexeme.cut_rest_length_lt c cs

section Characters

variable {inner : List Char} {c : Char} {cs : List Char}

theorem substitute_nil (inner : List Char) : substitute inner [] = [] := by
  rw [substitute]

theorem substitute_blank (h : isBlank c = true) :
    substitute inner (c :: cs) = c :: substitute inner cs := by
  rw [substitute, if_pos h]

theorem substitute_answer (h : isBlank c = false) (hkind : (Lexeme.cut c cs).kind = .answer) :
    substitute inner (c :: cs) =
      '(' :: (inner ++ ')' :: substitute inner (Lexeme.cut c cs).rest) := by
  rw [substitute]
  simp only [h, hkind, Bool.false_eq_true, if_false, if_true]

theorem substitute_other (h : isBlank c = false) (hkind : (Lexeme.cut c cs).kind ≠ .answer) :
    substitute inner (c :: cs) =
      (Lexeme.cut c cs).chars ++ substitute inner (Lexeme.cut c cs).rest := by
  rw [substitute]
  simp only [h, hkind, Bool.false_eq_true, if_false]

theorem head?_substitute (inner cs : List Char) :
    (substitute inner cs).head? = cs.head? ∨ Boundary (substitute inner cs) := by
  cases cs with
  | nil => exact .inl (by rw [substitute_nil])
  | cons c cs =>
    cases hblank : isBlank c with
    | true => exact .inl (by rw [substitute_blank hblank]; rfl)
    | false =>
      by_cases hkind : (Lexeme.cut c cs).kind = .answer
      · rw [substitute_answer hblank hkind]
        exact .inr (.cons rfl rfl)
      · obtain ⟨tail, htail⟩ := Lexeme.exists_tail c cs
        rw [substitute_other hblank hkind, htail]
        exact .inl rfl

theorem mem_substitute {d : Char} (h : d ∈ substitute inner cs) :
    d = '(' ∨ d = ')' ∨ d ∈ inner ∨ d ∈ cs := by
  induction cs using Token.scan_induction with
  | nil => simp [substitute_nil] at h
  | blank c cs hblank ih =>
    rw [substitute_blank hblank] at h
    grind
  | token c cs hblank ih =>
    have hlossless := Lexeme.cut_lossless c cs
    by_cases hkind : (Lexeme.cut c cs).kind = .answer
    · rw [substitute_answer hblank hkind] at h
      grind
    · rw [substitute_other hblank hkind] at h
      grind

end Characters

def Token.word (t : Token) : TokenKind × String := (t.kind, t.literal)

theorem Token.map_word_scan (cs : List Char) (offset other : Nat) :
    (scan other cs).map word = (scan offset cs).map word := by
  induction cs using scan_induction generalizing offset other with
  | nil => simp [scan_nil]
  | blank c cs hblank ih =>
    rw [scan_blank hblank, scan_blank hblank]
    exact ih _ _
  | token c cs hblank ih =>
    rw [scan_cons hblank, scan_cons hblank, List.map_cons, List.map_cons, ih]
    rfl

/-- The second tokens are the first with the inner ones, in brackets, for every `ans`. -/
inductive Spliced (inner : List Token) : List Token → List Token → Prop where
  | nil : Spliced inner [] []
  | keep {t u : Token} {ts us : List Token} : u.word = t.word → t.kind ≠ .answer →
      Spliced inner ts us → Spliced inner (t :: ts) (u :: us)
  | answer {t opener closer : Token} {body ts us : List Token} : t.kind = .answer →
      opener.kind = .opening .round → body.map Token.word = inner.map Token.word →
      closer.kind = .closing .round → Spliced inner ts us →
      Spliced inner (t :: ts) (opener :: (body ++ closer :: us))

/-- Substitution in the characters is substitution in the tokens. -/
theorem spliced_scan_substitute (inner cs : List Char) (start offset other : Nat) :
    Spliced (Token.scan start inner) (Token.scan offset cs)
      (Token.scan other (substitute inner cs)) := by
  induction cs using Token.scan_induction generalizing offset other with
  | nil =>
    rw [substitute_nil, Token.scan_nil, Token.scan_nil]
    exact .nil
  | blank c cs hblank ih =>
    rw [substitute_blank hblank, Token.scan_blank hblank, Token.scan_blank hblank]
    exact ih _ _
  | token c cs hblank ih =>
    rw [Token.scan_cons hblank]
    by_cases hkind : (Lexeme.cut c cs).kind = .answer
    · have hopener : ∀ ds, Token.scan other ('(' :: ds) =
          ⟨.opening .round, "(", other, 1⟩ :: Token.scan (other + 1) ds :=
        fun ds => Token.scan_cons rfl
      have hcloser : ∀ place ds, Token.scan place (')' :: ds) =
          ⟨.closing .round, ")", place, 1⟩ :: Token.scan (place + 1) ds :=
        fun place ds => Token.scan_cons rfl
      rw [substitute_answer hblank hkind, hopener, Token.scan_append (.cons rfl rfl), hcloser]
      exact .answer hkind rfl (Token.map_word_scan inner _ _) rfl (ih _ _)
    · -- What follows may start with a bracket now, but that does not continue the lexeme either.
      obtain ⟨tail, htail⟩ := Lexeme.exists_tail c cs
      have hcut := Lexeme.cut_append htail (head?_substitute inner (Lexeme.cut c cs).rest)
      rw [substitute_other hblank hkind, htail, List.cons_append, Token.scan_cons hblank, hcut]
      exact .keep rfl hkind (ih _ _)

example : substitute "1".toList "2 * ans - answer".toList = "2 * (1) - answer".toList := by
  decide +kernel

def Expr.value? (e : Expr) : Option Float := e.evaluate.toOption

namespace Expr

theorem value?_unary (op : Operator) (operand : Expr) (token : Option Token) :
    (unary op operand token).value? = operand.value?.bind fun x => op.apply? 0 x := by
  simp only [value?, evaluate]
  cases operand.evaluate with
  | error => rfl
  | ok x =>
    dsimp only [Except.toOption, Option.bind]
    cases op.apply? 0 x <;> rfl

theorem value?_binary (op : Operator) (left right : Expr) (token : Option Token) :
    (binary op left right token).value? =
      left.value?.bind fun x => right.value?.bind fun y => op.apply? x y := by
  simp only [value?, evaluate]
  cases left.evaluate with
  | error => rfl
  | ok x =>
    cases right.evaluate with
    | error => rfl
    | ok y =>
      dsimp only [Except.toOption, Option.bind]
      cases op.apply? x y <;> rfl

end Expr

theorem Derivation.exists_moved {c : Category} (d : Derivation c) {body : List Token}
    (h : body.map Token.word = d.tokens.map Token.word) :
    ∃ e : Derivation c, e.tokens = body ∧ ∀ ans, (e.tree ans).value? = (d.tree ans).value? := by
  induction d generalizing body with
  | number t x numeral reads =>
    obtain ⟨u, us, rfl, hu, hus⟩ := List.map_eq_cons_iff.mp h
    obtain rfl := List.map_eq_nil_iff.mp hus
    obtain ⟨hkind, hliteral⟩ := Prod.mk.inj hu
    exact ⟨.number u x (hkind ▸ numeral) (hliteral ▸ reads), rfl, fun _ => rfl⟩
  | answer t named =>
    obtain ⟨u, us, rfl, hu, hus⟩ := List.map_eq_cons_iff.mp h
    obtain rfl := List.map_eq_nil_iff.mp hus
    exact ⟨.answer u ((Prod.mk.inj hu).1.trans named), rfl, fun _ => rfl⟩
  | bracket shape opener closer opens closes inner ih =>
    rw [tokens, List.cons_append, List.map_cons, List.map_append] at h
    obtain ⟨opener', us, rfl, hopener, hus⟩ := List.map_eq_cons_iff.mp h
    obtain ⟨inside, us, rfl, hinside, hus⟩ := List.map_eq_append_iff.mp hus
    obtain ⟨closer', us, rfl, hcloser, hus⟩ := List.map_eq_cons_iff.mp hus
    obtain rfl := List.map_eq_nil_iff.mp hus
    obtain ⟨e, rfl, hvalue⟩ := ih hinside
    exact ⟨.bracket shape opener' closer' ((Prod.mk.inj hopener).1.trans opens)
      ((Prod.mk.inj hcloser).1.trans closes) e, rfl, hvalue⟩
  | sign op t names signs operand ih =>
    obtain ⟨u, us, rfl, hu, hus⟩ := List.map_eq_cons_iff.mp h
    obtain ⟨e, rfl, hvalue⟩ := ih hus
    refine ⟨.sign op u ((Prod.mk.inj hu).1.trans names) signs e, rfl, fun ans => ?_⟩
    simp only [tree, Expr.value?_unary, hvalue]
  | widen included phrase ih =>
    obtain ⟨e, he, hvalue⟩ := ih h
    exact ⟨.widen included e, he, hvalue⟩
  | join op t names joins left right ihl ihr =>
    rw [tokens, List.map_append, List.map_cons] at h
    obtain ⟨front, us, rfl, hfront, hus⟩ := List.map_eq_append_iff.mp h
    obtain ⟨u, back, rfl, hu, hback⟩ := List.map_eq_cons_iff.mp hus
    obtain ⟨l, rfl, hleft⟩ := ihl hfront
    obtain ⟨r, rfl, hright⟩ := ihr hback
    refine ⟨.join op u ((Prod.mk.inj hu).1.trans names) joins l r, rfl, fun ans => ?_⟩
    simp only [tree, Expr.value?_binary, hleft, hright]

namespace Nesting

/-- The check of the brackets comes to the same end for substituted tokens, if the brackets that are
open are of the same kinds and the tokens before open none, or the same. -/
theorem isNone_faultAfter_spliced {d : Derivation .sum} {ts us : List Token}
    (h : Spliced d.tokens ts us) {previous previous' : Option TokenKind}
    {openers openers' : List Token}
    (hprevious : ∀ shape, previous' = some (.opening shape) ↔ previous = some (.opening shape))
    (hopeners : openers'.map Token.kind = openers.map Token.kind) :
    (faultAfter previous' openers' us).isNone = (faultAfter previous openers ts).isNone := by
  induction h generalizing previous previous' openers openers' with
  | nil =>
    have hempty : openers' = [] ↔ openers = [] := by
      rw [← List.map_eq_nil_iff, hopeners, List.map_eq_nil_iff]
    cases openers <;> cases openers' <;> simp_all [faultAfter]
  | @keep t u ts us hword hkind _ ih =>
    have hsame : u.kind = t.kind := (Prod.mk.inj hword).1
    rw [faultAfter, faultAfter, hsame]
    split
    · exact ih (fun _ => Iff.rfl) (by simp [hopeners, hsame])
    · next shape hclose =>
      by_cases hpair : previous = some (.opening shape)
      · rw [if_pos hpair, if_pos ((hprevious shape).mpr hpair)]
        rfl
      · rw [if_neg hpair, if_neg (mt (hprevious shape).mp hpair)]
        cases openers with
        | nil =>
          obtain rfl := List.map_eq_nil_iff.mp hopeners
          rfl
        | cons top openers =>
          obtain ⟨top', openers', rfl, htop, hrest⟩ := List.map_eq_cons_iff.mp hopeners
          dsimp only
          rw [htop]
          split
          · exact ih (fun _ => Iff.rfl) hrest
          · rfl
    · exact ih (fun _ => Iff.rfl) hopeners
  | @answer t opener closer body ts us hanswer hopen hbody hclose _ ih =>
    -- The bracket brought in is not empty, and it is closed when the check comes out of it.
    obtain ⟨e, rfl, -⟩ := d.exists_moved hbody
    obtain ⟨kind, hkind, hinside⟩ := exists_faultAfter_derivation e
    have hne : some kind ≠ some (.opening .round) := by
      rintro ⟨⟩
      simp [TokenKind.isOpening, TokenKind.closing?] at hkind
    rw [faultAfter_opening hopen, hinside, faultAfter_closing hne hopen hclose,
      faultAfter_other (by rw [hanswer]; rfl) (by rw [hanswer]; rfl), hanswer, hclose]
    exact ih (fun _ => by simp) hopeners

end Nesting

end PromptCalc
