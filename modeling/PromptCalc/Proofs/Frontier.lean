import PromptCalc.Proofs.Precedence

/-!
# The frontier of an equation

Read from left to right, the tokens of an equation are told apart by two things only: whether an
operand or an operator has to come next, and which brackets are open. Tokens can be continued to an
equation exactly if this frontier passes all of them. For behind a phrase any operator may follow
with another operand, whatever the precedence: the phrase becomes the left operand of the operator,
or the operator goes into the last operand of the phrase, and a sum comes out in the end.
-/
namespace PromptCalc

namespace Derivation

section Appending

variable {c r : Category} {op : Operator} {t : Token} {x : Derivation r}

/-- The phrase goes on with the operator and its operand. It is still read whole with the powers
with which it was, up to that of the operator, and a sign before it stays before all of it. -/
def GoesOn (d : Derivation c) (op : Operator) (t : Token) (x : Derivation r) : Prop :=
  ∃ (k : Category) (e : Derivation k), e.tokens = d.tokens ++ t :: x.tokens ∧
    (∀ power ≤ op.leftPower, c.Fits power → k.Fits power) ∧
    (c = .signed → op = .power → k = .signed)

theorem goesOn_whole (d : Derivation c) (names : t.kind = .operator op)
    (hx : ∀ power, r.Fits power) (hstop : op.leftPower < c.stop) : d.GoesOn op t x := by
  obtain ⟨l, k, r', hl, hr, joins, hk, -⟩ :=
    Category.exists_joins hstop (Nat.le_refl _) (hx op.rightPower)
  obtain ⟨left, hleft⟩ := exists_recast hl d
  obtain ⟨right, hright⟩ := exists_recast hr x
  refine ⟨k, .join op t names joins left right, ?_, fun power hle _ => hk.mono hle, ?_⟩
  · rw [tokens, hleft.tokens, hright.tokens]
  · rintro rfl rfl
    simp [Category.stop, Operator.leftPower] at hstop

theorem goesOn_sign {op' : Operator} {t' : Token} {names' : t'.kind = .operator op'}
    {signs : op'.signPower?.isSome} {operand : Derivation .sign} (h : operand.GoesOn op t x)
    (hstop : ¬ op.leftPower < Category.signed.stop) :
    (Derivation.sign op' t' names' signs operand).GoesOn op t x := by
  obtain ⟨k, e, he, hk, -⟩ := h
  have hfour : 4 ≤ op.leftPower := by
    simp only [Category.stop] at hstop
    omega
  obtain ⟨operand', hoperand⟩ :=
    exists_recast (Category.widens_sign (hk 4 hfour (by simp [Category.Fits]))) e
  refine ⟨.signed, .sign op' t' names' signs operand', ?_, fun _ _ _ => trivial, fun _ _ => rfl⟩
  rw [tokens, hoperand.tokens, he, tokens, List.cons_append]

theorem goesOn_join {l k r' : Category} {op' : Operator} {t' : Token}
    {names' : t'.kind = .operator op'} {joins : l.Joins k op' r'} {left : Derivation l}
    {right : Derivation r'} (h : right.GoesOn op t x) (hstop : ¬ op.leftPower < k.stop) :
    (join op' t' names' joins left right).GoesOn op t x := by
  obtain ⟨c, e, he, hc, hsigned⟩ := h
  have hfit : c.Fits op'.rightPower := by
    rcases joins.rightPower_le hstop with hle | ⟨rfl, rfl⟩
    · exact hc _ hle joins.fits_right
    · rw [hsigned rfl rfl]
      trivial
  obtain ⟨l', k', c', hl, hr, joins', hk, -⟩ :=
    Category.exists_joins joins.leftPower_lt_stop (Nat.le_refl _) hfit
  obtain ⟨left', hleft⟩ := exists_recast hl left
  obtain ⟨right', hright⟩ := exists_recast hr e
  refine ⟨k', .join op' t' names' joins' left' right', ?_,
    fun power _ hfit => hk.mono (joins.le_leftPower hfit), ?_⟩
  · rw [tokens, hleft.tokens, hright.tokens, he, tokens, List.append_assoc, List.cons_append]
  · rintro rfl
    cases joins

/-- Every phrase goes on with every operator, which takes the whole of it as its left operand, or
else the last operand in it that the operator may follow. -/
theorem goesOn (d : Derivation c) (names : t.kind = .operator op)
    (hx : ∀ power, r.Fits power) : d.GoesOn op t x := by
  induction d with
  | number | answer | bracket =>
    exact goesOn_whole _ names hx (Category.leftPower_lt_atom_stop op)
  | sign op' t' names' signs operand ih =>
    by_cases hstop : op.leftPower < Category.signed.stop
    · exact goesOn_whole _ names hx hstop
    · exact goesOn_sign ih hstop
  | widen included phrase ih =>
    obtain ⟨k, e, he, hk, -⟩ := ih
    refine ⟨k, e, he, fun power hle hfit => hk power hle (included.fits hfit), ?_⟩
    rintro rfl
    cases included
  | @join l k r' op' t' names' joins left right _ ihr =>
    by_cases hstop : op.leftPower < k.stop
    · exact goesOn_whole _ names hx hstop
    · exact goesOn_join ihr hstop

theorem exists_sum_appended (d : Derivation .sum) (names : t.kind = .operator op)
    (x : Derivation r) (hx : ∀ power, r.Fits power) :
    ∃ e : Derivation .sum, e.tokens = d.tokens ++ t :: x.tokens := by
  obtain ⟨k, e, he, -⟩ := d.goesOn (x := x) names hx
  obtain ⟨sum, hsum⟩ := exists_recast k.widens_sum e
  exact ⟨sum, hsum.tokens.trans he⟩

end Appending

end Derivation

/-- Whichever operand follows the tokens, a sum comes out. -/
def Leads (lead : List Token) : Prop :=
  ∀ {c : Category} (x : Derivation c), (∀ power, c.Fits power) →
    ∃ d : Derivation .sum, d.tokens = lead ++ x.tokens

theorem leads_nil : Leads [] := by
  intro c x _
  obtain ⟨d, hd⟩ := x.exists_recast c.widens_sum
  exact ⟨d, hd.tokens⟩

theorem Leads.sign {lead : List Token} (h : Leads lead) {op : Operator} {t : Token}
    (names : t.kind = .operator op) (signs : op.signPower?.isSome) : Leads (lead ++ [t]) := by
  intro c x hx
  obtain ⟨operand, hoperand⟩ := x.exists_recast (Category.widens_sign (hx 4))
  obtain ⟨d, hd⟩ := h (.sign op t names signs operand) fun _ => trivial
  exact ⟨d, by rw [hd, Derivation.tokens, hoperand.tokens, List.append_assoc]; rfl⟩

theorem leads_operator (d : Derivation .sum) {op : Operator} {t : Token}
    (names : t.kind = .operator op) : Leads (d.tokens ++ [t]) := by
  intro c x hx
  obtain ⟨e, he⟩ := d.exists_sum_appended names x hx
  exact ⟨e, by rw [he, List.append_assoc]; rfl⟩

/-- The tokens can be continued to those of a sum. -/
def Viable (ts : List Token) : Prop :=
  ∃ (more : List Token) (d : Derivation .sum), d.tokens = ts ++ more

theorem Viable.of_append {as bs : List Token} (h : Viable (as ++ bs)) : Viable as := by
  obtain ⟨more, d, hd⟩ := h
  exact ⟨bs ++ more, d, by rw [hd, List.append_assoc]⟩

inductive Expected where
  | operand
  | operator
  deriving DecidableEq, Repr

/-- What has to come next, and the shapes of the open brackets, the innermost first. -/
structure Frontier where
  expected : Expected
  shapes : List Bracket
  deriving DecidableEq, Repr

namespace Frontier

def start : Frontier := ⟨.operand, []⟩

/-- The frontier after a token, unless the token is out of place. -/
def step (f : Frontier) (t : Token) : Option Frontier :=
  match f.expected, t.kind with
  | .operand, .int | .operand, .float =>
    if (Number.read? t.literal).isSome then some ⟨.operator, f.shapes⟩ else none
  | .operand, .answer => some ⟨.operator, f.shapes⟩
  | .operand, .opening shape => some ⟨.operand, shape :: f.shapes⟩
  | .operand, .operator op => if op.signPower?.isSome then some f else none
  | .operator, .operator _ => some ⟨.operand, f.shapes⟩
  | .operator, .closing shape =>
    match f.shapes with
    | [] => none
    | top :: shapes => if top = shape then some ⟨.operator, shapes⟩ else none
  | _, _ => none

def run (f : Frontier) (ts : List Token) : Option Frontier := ts.foldlM step f

/-- The ways in which a token moves a frontier on. -/
inductive Passes (t : Token) : Frontier → Frontier → Prop where
  | number {shapes : List Bracket} {x : Float} : t.kind = .int ∨ t.kind = .float →
      Number.read? t.literal = some x → Passes t ⟨.operand, shapes⟩ ⟨.operator, shapes⟩
  | answer {shapes : List Bracket} : t.kind = .answer →
      Passes t ⟨.operand, shapes⟩ ⟨.operator, shapes⟩
  | opening {shape : Bracket} {shapes : List Bracket} : t.kind = .opening shape →
      Passes t ⟨.operand, shapes⟩ ⟨.operand, shape :: shapes⟩
  | sign {op : Operator} {shapes : List Bracket} : t.kind = .operator op →
      op.signPower?.isSome → Passes t ⟨.operand, shapes⟩ ⟨.operand, shapes⟩
  | operator {op : Operator} {shapes : List Bracket} : t.kind = .operator op →
      Passes t ⟨.operator, shapes⟩ ⟨.operand, shapes⟩
  | closing {shape : Bracket} {shapes : List Bracket} : t.kind = .closing shape →
      Passes t ⟨.operator, shape :: shapes⟩ ⟨.operator, shapes⟩

theorem Passes.step_eq {f g : Frontier} {t : Token} (h : Passes t f g) : f.step t = some g := by
  cases h with
  | number hkind hread => rcases hkind with h | h <;> simp [step, h, hread]
  | sign hkind hsign => simp [step, hkind, hsign]
  | answer h | opening h | operator h | closing h => simp [step, h]

theorem passes_of_step {f g : Frontier} {t : Token} (h : f.step t = some g) : Passes t f g := by
  obtain ⟨expected, shapes⟩ := f
  have numeral : t.kind = .int ∨ t.kind = .float →
      (if (Number.read? t.literal).isSome then some (⟨.operator, shapes⟩ : Frontier) else none) =
        some g → Passes t ⟨.operand, shapes⟩ g := by
    intro hkind hg
    split at hg
    · next hread =>
      obtain ⟨x, hx⟩ := Option.isSome_iff_exists.mp hread
      obtain rfl := Option.some.inj hg
      exact .number hkind hx
    · simp at hg
  cases expected with
  | operand =>
    cases hkind : t.kind with
    | int => exact numeral (.inl hkind) (by simpa only [step, hkind] using h)
    | float => exact numeral (.inr hkind) (by simpa only [step, hkind] using h)
    | answer =>
      simp only [step, hkind, Option.some.injEq] at h
      exact h ▸ .answer hkind
    | opening shape =>
      simp only [step, hkind, Option.some.injEq] at h
      exact h ▸ .opening hkind
    | operator op =>
      simp only [step, hkind] at h
      split at h
      · next hsign =>
        obtain rfl := Option.some.inj h
        exact .sign hkind hsign
      · simp at h
    | _ => simp [step, hkind] at h
  | operator =>
    cases hkind : t.kind with
    | operator op =>
      simp only [step, hkind, Option.some.injEq] at h
      exact h ▸ .operator hkind
    | closing shape =>
      cases shapes with
      | nil => simp [step, hkind] at h
      | cons top shapes =>
        simp only [step, hkind] at h
        split at h
        · next htop =>
          obtain rfl := Option.some.inj h
          exact .closing (htop ▸ hkind)
        · simp at h
    | _ => simp [step, hkind] at h

theorem run_nil (f : Frontier) : f.run [] = some f := rfl

theorem run_append (f : Frontier) (as bs : List Token) :
    f.run (as ++ bs) = (f.run as).bind (·.run bs) := List.foldlM_append

theorem run_cons {f g : Frontier} {t : Token} (h : Passes t f g) (ts : List Token) :
    f.run (t :: ts) = g.run ts := by
  rw [run, List.foldlM_cons, h.step_eq]
  rfl

/-- Over a phrase, the frontier goes from before an operand to behind it. -/
theorem run_derivation {c : Category} (d : Derivation c) (shapes : List Bracket)
    (rest : List Token) :
    run ⟨.operand, shapes⟩ (d.tokens ++ rest) = run ⟨.operator, shapes⟩ rest := by
  induction d generalizing shapes rest with
  | number t x numeral reads => exact run_cons (.number numeral reads) rest
  | answer t named => exact run_cons (.answer named) rest
  | bracket shape opener closer opens closes inner ih =>
    rw [Derivation.tokens, List.append_assoc, List.cons_append, run_cons (.opening opens), ih]
    exact run_cons (.closing closes) rest
  | sign op t names signs operand ih =>
    rw [Derivation.tokens, List.cons_append, run_cons (.sign names signs), ih]
  | widen included phrase ih => exact ih shapes rest
  | join op t names joins left right ihl ihr =>
    rw [Derivation.tokens, List.append_assoc, ihl, List.cons_append, run_cons (.operator names),
      ihr]

end Frontier

/-- The tokens open brackets of the given shapes, the innermost first, each of them where an operand
may stand, and close none of these. -/
inductive Unclosed : List Bracket → List Token → Prop where
  | nil : Unclosed [] []
  | opening {shape : Bracket} {shapes : List Bracket} {outer lead : List Token} {opener : Token} :
      Unclosed shapes outer → Leads lead → opener.kind = .opening shape →
      Unclosed (shape :: shapes) (outer ++ (lead ++ [opener]))

namespace Frontier

/-- What lies before a frontier: in the innermost open bracket, what leads to an operand or a sum.
-/
inductive Reached : Frontier → List Token → Prop where
  | operand {shapes : List Bracket} {outer lead : List Token} : Unclosed shapes outer →
      Leads lead → Reached ⟨.operand, shapes⟩ (outer ++ lead)
  | operator {shapes : List Bracket} {outer : List Token} (d : Derivation .sum) :
      Unclosed shapes outer → Reached ⟨.operator, shapes⟩ (outer ++ d.tokens)

theorem reached_start : start.Reached [] := .operand .nil leads_nil

theorem Reached.atom {shapes : List Bracket} {ts : List Token} (h : Reached ⟨.operand, shapes⟩ ts)
    (x : Derivation .atom) : Reached ⟨.operator, shapes⟩ (ts ++ x.tokens) := by
  cases h with
  | operand houter hlead =>
    obtain ⟨d, hd⟩ := hlead x fun _ => trivial
    rw [List.append_assoc, ← hd]
    exact .operator d houter

theorem Reached.close {shape : Bracket} {shapes : List Bracket} {ts : List Token} {t : Token}
    (h : Reached ⟨.operator, shape :: shapes⟩ ts) (hclose : t.kind = .closing shape) :
    Reached ⟨.operator, shapes⟩ (ts ++ [t]) := by
  cases h with
  | operator d houter =>
    cases houter with
    | @opening _ _ outer lead opener houter hlead hopen =>
      have hatom := (Reached.operand houter hlead).atom (.bracket shape opener t hopen hclose d)
      simpa [Derivation.tokens] using hatom

theorem Reached.pass {f g : Frontier} {ts : List Token} {t : Token} (h : f.Reached ts)
    (hpass : Passes t f g) : g.Reached (ts ++ [t]) := by
  cases hpass with
  | number hkind hread => exact h.atom (.number t _ hkind hread)
  | answer hkind => exact h.atom (.answer t hkind)
  | closing hkind => exact h.close hkind
  | opening hkind =>
    cases h with
    | operand houter hlead =>
      rw [List.append_assoc, ← List.append_nil (_ ++ (_ ++ [t]))]
      exact .operand (.opening houter hlead hkind) leads_nil
  | sign hkind hsign =>
    cases h with
    | operand houter hlead =>
      rw [List.append_assoc]
      exact .operand houter (hlead.sign hkind hsign)
  | operator hkind =>
    cases h with
    | operator d houter =>
      rw [List.append_assoc]
      exact .operand houter (leads_operator d hkind)

theorem Reached.run {f g : Frontier} {ts us : List Token} (h : f.Reached ts)
    (hrun : f.run us = some g) : g.Reached (ts ++ us) := by
  induction us generalizing f ts with
  | nil =>
    obtain rfl := Option.some.inj hrun
    rwa [List.append_nil]
  | cons t us ih =>
    obtain ⟨mid, hstep, hrest⟩ := Option.bind_eq_some_iff.mp hrun
    have hmid := ih (h.pass (passes_of_step hstep)) hrest
    rwa [List.append_assoc] at hmid

end Frontier

/-- Tokens are those of a sum exactly if the frontier passes them and comes out behind an operand,
with no bracket open. -/
theorem derivable_iff_run {ts : List Token} :
    (∃ d : Derivation .sum, d.tokens = ts) ↔ Frontier.start.run ts = some ⟨.operator, []⟩ := by
  constructor
  · rintro ⟨d, rfl⟩
    have h := Frontier.run_derivation d [] []
    rwa [List.append_nil] at h
  · intro h
    cases Frontier.reached_start.run h with
    | operator d houter =>
      cases houter
      exact ⟨d, rfl⟩

def Bracket.closingToken (shape : Bracket) : Token :=
  ⟨.closing shape, shape.closer.toString, .empty 0⟩

namespace Frontier

theorem run_closing (shapes : List Bracket) :
    run ⟨.operator, shapes⟩ (shapes.map Bracket.closingToken) = some ⟨.operator, []⟩ := by
  induction shapes with
  | nil => rfl
  | cons shape shapes ih => rw [List.map_cons, run_cons (.closing rfl), ih]

/-- What is missing at a frontier can be supplied: an operand, and what closes the brackets. -/
theorem exists_completion (f : Frontier) : ∃ more, f.run more = some ⟨.operator, []⟩ := by
  obtain ⟨_ | _, shapes⟩ := f
  · obtain ⟨x, hx⟩ : ∃ x, Number.read? "1" = some x := ⟨_, rfl⟩
    refine ⟨⟨.int, "1", .empty 0⟩ :: shapes.map Bracket.closingToken, ?_⟩
    rw [run_cons (.number (.inl rfl) hx), run_closing]
  · exact ⟨_, run_closing shapes⟩

end Frontier

theorem viable_iff_run {ts : List Token} : Viable ts ↔ ∃ f, Frontier.start.run ts = some f := by
  constructor
  · rintro ⟨more, d, hd⟩
    have h := derivable_iff_run.mp ⟨d, hd⟩
    rw [Frontier.run_append] at h
    obtain ⟨f, hf, -⟩ := Option.bind_eq_some_iff.mp h
    exact ⟨f, hf⟩
  · rintro ⟨f, hf⟩
    obtain ⟨more, hmore⟩ := f.exists_completion
    obtain ⟨d, hd⟩ := derivable_iff_run.mpr (show Frontier.start.run (ts ++ more) = _ by
      rw [Frontier.run_append, hf, Option.bind_some, hmore])
    exact ⟨more, d, hd⟩

/-- What holds of the beginnings of tokens up to one of them, and not with it, holds exactly up to
there. -/
theorem take_iff_of_append {P : List Token → Prop} {front : List Token} {t : Token}
    (hclosed : ∀ as bs, P (as ++ bs) → P as) (hfront : P front) (hnot : ¬ P (front ++ [t]))
    {back : List Token} (n : Nat) : P ((front ++ t :: back).take n) ↔ n ≤ front.length := by
  constructor
  · intro h
    refine Nat.le_of_not_lt fun hlong => hnot ?_
    obtain ⟨k, rfl⟩ : ∃ k, n = front.length + (k + 1) := ⟨n - front.length - 1, by omega⟩
    refine hclosed _ (back.take k) ?_
    rw [List.take_length_add_append, List.take_succ_cons] at h
    rwa [List.append_assoc]
  · intro h
    rw [List.take_append_of_le_length h]
    refine hclosed _ (front.drop n) ?_
    rwa [List.take_append_drop]

/-- Up to the first token that the frontier does not pass the tokens are viable, and no further. -/
theorem viable_take_iff {front back : List Token} {t : Token} {f : Frontier}
    (hrun : Frontier.start.run front = some f) (hstep : f.step t = none) (n : Nat) :
    Viable ((front ++ t :: back).take n) ↔ n ≤ front.length := by
  refine take_iff_of_append (fun _ _ => Viable.of_append) (viable_iff_run.mpr ⟨f, hrun⟩) ?_ n
  intro h
  obtain ⟨g, hg⟩ := viable_iff_run.mp h
  rw [Frontier.run_append, hrun, Option.bind_some] at hg
  obtain ⟨mid, hmid, -⟩ := Option.bind_eq_some_iff.mp hg
  rw [hstep] at hmid
  cases hmid

end PromptCalc
