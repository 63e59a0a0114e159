import PromptCalc.Proofs.Layout
import PromptCalc.Proofs.Spelling

/-!
# Explicit grouping

A bracket around a phrase says what the grammar says without it. Wherever one is put around a phrase
of an equation, and whatever shapes its own brackets are given, the tree stays the same, as long as
it does not go too deep.
-/
namespace PromptCalc

def SameWord (t u : Token) : Prop := u.word = t.word

namespace Category

/-- In place of a phrase of the second category one of the first can stand. An exponent with signs
before it can be put in a bracket. -/
def Replaces (k c : Category) : Prop := k.Widens c ∨ k = atom ∧ c = signed

variable {k l c r : Category}

theorem atom_replaces (c : Category) : atom.Replaces c := by
  have hchain : atom.Widens chain := .single .atom
  have hsign : atom.Widens sign := hchain.tail .chain
  cases c with
  | sum => exact .inl atom.widens_sum
  | product => exact .inl (hsign.tail .sign)
  | sign => exact .inl hsign
  | signed => exact .inr ⟨rfl, rfl⟩
  | chain => exact .inl hchain
  | atom => exact .inl .refl

theorem Replaces.widens (h : k.Replaces c) (hc : c ≠ signed) : k.Widens c :=
  h.resolve_right fun hatom => hc hatom.2

theorem Replaces.includes (h : k.Replaces c) (hincludes : c.Includes r) : k.Replaces r := by
  rcases h with h | ⟨rfl, -⟩
  · exact .inl (h.tail hincludes)
  · exact atom_replaces r

theorem Replaces.exists_joins {m : Category} {op : Operator} (joins : l.Joins c op r)
    (hl : k.Replaces l) (hr : m.Replaces r) :
    ∃ l' c' r', k.Widens l' ∧ m.Widens r' ∧ l'.Joins c' op r' ∧ c'.Widens c := by
  have hleft : k.Widens l := hl.widens (by cases joins <;> exact nofun)
  rcases hr with hright | ⟨rfl, rfl⟩
  · exact ⟨l, c, r, hleft, hright, joins, .refl⟩
  · cases joins with
    | signedPower => exact ⟨chain, chain, atom, hleft, .refl, .power, .single .chain⟩

end Category

/-- The literals of a phrase in which brackets of any shapes are put around phrases, and the ones
that were there have any shapes. -/
inductive Derivation.Regrouped : {c : Category} → Derivation c → List String → Prop where
  | number {t : Token} {x : Float} {numeral : t.kind = .int ∨ t.kind = .float}
      {reads : Number.read? t.literal = some x} :
      Regrouped (.number t x numeral reads) [t.literal]
  | answer {t : Token} {named : t.kind = .answer} : Regrouped (.answer t named) [t.literal]
  | bracket {shape : Bracket} {opener closer : Token} {opens : opener.kind = .opening shape}
      {closes : closer.kind = .closing shape} {inner : Derivation .sum} {ls : List String}
      (other : Bracket) : Regrouped inner ls →
      Regrouped (.bracket shape opener closer opens closes inner) (other.around ls)
  | sign {op : Operator} {t : Token} {names : t.kind = .operator op} {signs : op.signPower?.isSome}
      {operand : Derivation .sign} {ls : List String} : Regrouped operand ls →
      Regrouped (.sign op t names signs operand) (t.literal :: ls)
  | widen {c d : Category} {included : c.Includes d} {phrase : Derivation c} {ls : List String} :
      Regrouped phrase ls → Regrouped (.widen included phrase) ls
  | join {l c r : Category} {op : Operator} {t : Token} {names : t.kind = .operator op}
      {joins : l.Joins c op r} {left : Derivation l} {right : Derivation r} {ls rs : List String} :
      Regrouped left ls → Regrouped right rs →
      Regrouped (.join op t names joins left right) (ls ++ t.literal :: rs)
  | around {c : Category} {phrase : Derivation c} {ls : List String} (shape : Bracket) :
      Regrouped phrase ls → Regrouped phrase (shape.around ls)

namespace Derivation

variable {text : String} {c : Category} {d : Derivation c} {ls : List String}

theorem regrouped_self (d : Derivation c) (hd : d.tokens ⊆ tokenize text) :
    d.Regrouped (d.tokens.map Token.literal) := by
  induction d with
  | number => exact .number
  | answer => exact .answer
  | bracket shape opener closer opens closes inner ih =>
    have hopener : opener.literal = shape.opener.toString :=
      (Token.literal_of_symbol (hd List.mem_cons_self) (by rw [opens]; rfl)).1
    have hcloser : closer.literal = shape.closer.toString :=
      (Token.literal_of_symbol (hd (by simp [tokens])) (by rw [closes]; rfl)).1
    have hinner : (bracket shape opener closer opens closes inner).Regrouped _ :=
      .bracket shape (ih fun t ht => hd (by simp [tokens, ht]))
    simpa [tokens, Bracket.around, hopener, hcloser] using hinner
  | sign op t names signs operand ih =>
    exact .sign (ih fun u hu => hd (List.mem_cons_of_mem _ hu))
  | widen included phrase ih => exact .widen (ih hd)
  | join op t names joins left right ihl ihr =>
    simp only [tokens, List.append_subset, List.cons_subset] at hd
    simp only [tokens, List.map_append, List.map_cons]
    exact .join (ihl hd.1) (ihr hd.2.2)

theorem Regrouped.separable (h : d.Regrouped ls) (hd : d.tokens ⊆ tokenize text) :
    Separable ls := by
  have hatom {t : Token} (ht : t ∈ tokenize text) (hkind : t.kind ≠ .quote) :
      Separable [t.literal] := by
    obtain ⟨hliteral, hword⟩ := Token.wordOf_literal ht
    exact .singleton hliteral (by rwa [hword])
  have hjoin {t : Token} {op : Operator} {ls rs : List String} (ht : t ∈ tokenize text)
      (names : t.kind = .operator op) (hl : Separable ls) (hr : Separable rs) :
      Separable (ls ++ t.literal :: rs) := by
    have hsymbol : t.kind.symbol? = some op.symbol := by rw [names]; rfl
    rw [(Token.literal_of_symbol ht hsymbol).1]
    exact hl.operator op hr
  induction h with
  | @number t x numeral =>
    refine hatom (hd List.mem_cons_self) ?_
    rcases numeral with h | h <;> rw [h] <;> exact nofun
  | @answer t named => exact hatom (hd List.mem_cons_self) (by rw [named]; exact nofun)
  | bracket other _ ih =>
    exact (ih fun t ht => hd (by simp [tokens, ht])).around other
  | @sign op t names _ _ _ _ ih =>
    exact hjoin (hd List.mem_cons_self) names .nil (ih fun u hu => hd (List.mem_cons_of_mem _ hu))
  | widen _ ih => exact ih hd
  | @join _ _ _ op t names _ left right _ _ _ _ ihl ihr =>
    simp only [tokens, List.append_subset, List.cons_subset] at hd
    obtain ⟨hleft, ht, hright⟩ := hd
    exact hjoin ht names (ihl hleft) (ihr hright)
  | around shape _ ih => exact (ih hd).around shape

/-- Tokens that stand for a regrouped phrase are derived, too, and the tree is the same but for the
places of its tokens. -/
theorem Regrouped.exists_alike (h : d.Regrouped ls) (hd : d.tokens ⊆ tokenize text)
    {ts : List Token} (hts : ts.map Token.word = ls.map wordOf) :
    ∃ (k : Category) (e : Derivation k), k.Replaces c ∧ e.tokens = ts ∧
      ∀ ans, (d.tree ans).Alike SameWord ans ans (e.tree ans) := by
  have hword {t u : Token} (ht : t ∈ tokenize text) (hu : u.word = wordOf t.literal) :
      SameWord t u := hu.trans (Token.wordOf_literal ht).2
  induction h generalizing ts with
  | @number t x numeral reads =>
    obtain ⟨u, _, rfl, hu, hus⟩ := List.map_eq_cons_iff.mp hts
    obtain rfl := List.map_eq_nil_iff.mp hus
    have hsame : SameWord t u := hword (hd List.mem_cons_self) hu
    obtain ⟨hkind, hliteral⟩ := Prod.mk.inj hsame
    refine ⟨.atom, .number u x (hkind ▸ numeral) (hliteral ▸ reads), .inl .refl, rfl, fun ans => ?_⟩
    exact .number x hsame (by rcases numeral with h | h <;> simp [h])
  | @answer t named =>
    obtain ⟨u, _, rfl, hu, hus⟩ := List.map_eq_cons_iff.mp hts
    obtain rfl := List.map_eq_nil_iff.mp hus
    have hsame : SameWord t u := hword (hd List.mem_cons_self) hu
    exact ⟨.atom, .answer u ((Prod.mk.inj hsame).1.trans named), .inl .refl, rfl,
      fun ans => .answer hsame named⟩
  | bracket other _ ih =>
    obtain ⟨inner, hinner, haround⟩ := exists_around hts
    obtain ⟨k, e, -, he, halike⟩ := ih (fun t ht => hd (by simp [tokens, ht])) hinner
    obtain ⟨b, hb, -, htree⟩ := haround e he
    exact ⟨.atom, b, .inl .refl, hb, fun ans => htree ans ▸ halike ans⟩
  | @sign op t names signs operand _ _ ih =>
    obtain ⟨u, us, rfl, hu, hus⟩ := List.map_eq_cons_iff.mp hts
    have hsame : SameWord t u := hword (hd List.mem_cons_self) hu
    obtain ⟨k, e, hreplaces, rfl, halike⟩ := ih (fun t ht => hd (List.mem_cons_of_mem _ ht)) hus
    obtain ⟨e', he'⟩ := e.exists_recast (hreplaces.widens (by decide))
    refine ⟨.signed, .sign op u ((Prod.mk.inj hsame).1.trans names) signs e', .inl .refl,
      congrArg (u :: ·) he'.tokens, fun ans => ?_⟩
    exact .unary hsame signs (he'.tree ans ▸ halike ans)
  | @widen _ _ included _ _ _ ih =>
    obtain ⟨k, e, hreplaces, he, halike⟩ := ih hd hts
    exact ⟨k, e, hreplaces.includes included, he, halike⟩
  | @join _ _ _ op t names joins left right _ _ _ _ ihl ihr =>
    simp only [tokens, List.append_subset, List.cons_subset] at hd
    obtain ⟨hleft, ht, hright⟩ := hd
    rw [List.map_append, List.map_cons] at hts
    obtain ⟨front, _, rfl, hfront, hts⟩ := List.map_eq_append_iff.mp hts
    obtain ⟨u, back, rfl, hu, hback⟩ := List.map_eq_cons_iff.mp hts
    have hsame : SameWord t u := hword ht hu
    obtain ⟨k, e, hl, rfl, hel⟩ := ihl hleft hfront
    obtain ⟨m, f, hr, rfl, hfr⟩ := ihr hright hback
    obtain ⟨l', c', r', hkl, hmr, joins', hc⟩ := hl.exists_joins joins hr
    obtain ⟨e', he'⟩ := e.exists_recast hkl
    obtain ⟨f', hf'⟩ := f.exists_recast hmr
    refine ⟨c', .join op u ((Prod.mk.inj hsame).1.trans names) joins' e' f', .inl hc, ?_,
      fun ans => .binary hsame (he'.tree ans ▸ hel ans) (hf'.tree ans ▸ hfr ans)⟩
    simp only [tokens, he'.tokens, hf'.tokens]
  | @around c _ _ shape _ ih =>
    obtain ⟨inner, hinner, haround⟩ := exists_around hts
    obtain ⟨k, e, -, he, halike⟩ := ih hd hinner
    obtain ⟨b, hb, -, htree⟩ := haround e he
    exact ⟨.atom, b, Category.atom_replaces c, hb, fun ans => htree ans ▸ halike ans⟩

end Derivation

theorem Expr.Alike.zipped {paired : Token → Token → Prop} {v w : Float} {e f : Expr}
    (h : e.Alike paired v w f) :
    e.tokens.length = f.tokens.length ∧
      e.Alike (fun t u => (t, u) ∈ e.tokens.zip f.tokens) v w f := by
  induction h with
  | number x _ hkind => exact ⟨rfl, .number x List.mem_cons_self hkind⟩
  | answer _ hkind => exact ⟨rfl, .answer List.mem_cons_self hkind⟩
  | unary _ hop _ ih =>
    refine ⟨congrArg (· + 1) ih.1, .unary List.mem_cons_self hop (ih.2.imp fun _ _ hmem => ?_)⟩
    exact List.mem_cons_of_mem _ hmem
  | binary _ _ _ ihl ihr =>
    simp only [tokens, List.zip_append ihl.1]
    refine ⟨?_, .binary (List.mem_append_right _ List.mem_cons_self)
      (ihl.2.imp fun _ _ hmem => List.mem_append_left _ hmem)
      (ihr.2.imp fun _ _ hmem => List.mem_append_right _ (List.mem_cons_of_mem _ hmem))⟩
    simp [ihl.1, ihr.1]

namespace Session

variable {s : Session} {text : String} {tree : Expr}

/-- A prompt that has a tree is spelled with the literals of its derivation. With brackets put
around phrases of it, and any shapes for those that were there, it goes too deep or has the same
tree, so that it is evaluated to the same answer or divides by zero at the same node. -/
theorem parse_regrouped (h : (s.parse text).1 = .ok tree) :
    ∃ (d : Derivation .sum) (closing : Token), Encloses text d.tokens closing ∧
      d.tree s.answer = tree ∧ d.Regrouped (d.tokens.map Token.literal) ∧
      Spelled (envelope (d.tokens.map Token.literal)) text.toList ∧
      ∀ ls text', d.Regrouped ls → Spelled (envelope ls) text'.toList →
        (∃ span, (s.parse text').1 = .error ⟨.equation ⟨.tooDeep, span⟩, text'⟩) ∨
        ∃ tree', (s.parse text').1 = .ok tree' ∧ tree.Alike SameWord s.answer s.answer tree' ∧
          Matched (fun e f => ∃ t u, (t, u) ∈ tree.tokens.zip tree'.tokens ∧
              e = ⟨.zeroDivision (some t.span), text⟩ ∧
              f = ⟨.zeroDivision (some u.span), text'⟩) (· = ·)
            (s.evaluate text).1 (s.evaluate text').1 := by
  obtain ⟨d, closing, hencloses, -, htree⟩ := exists_derivation_of_parse h
  have hd : d.tokens ⊆ tokenize text := fun t ht => hencloses.mem_tokenize ht
  refine ⟨d, closing, hencloses, htree, d.regrouped_self hd, hencloses.spelled,
    fun ls text' hls htext => ?_⟩
  obtain ⟨inner, closing', hencloses', hinner⟩ := htext.exists_encloses (hls.separable hd)
  obtain ⟨k, e, -, rfl, halike⟩ := hls.exists_alike hd hinner
  obtain ⟨sum, hsum⟩ := e.exists_recast k.widens_sum
  rw [← hsum.tokens] at hencloses'
  obtain ⟨hok, hdeep⟩ := parse_derivation (s := s) hencloses'
  by_cases hadmitted : Equation.Admitted (settingOf s.answer closing') 0 sum
  · have htrees : tree.Alike SameWord s.answer s.answer (sum.tree s.answer) := by
      rw [hsum.tree, ← htree]
      exact halike s.answer
    exact .inr ⟨_, hok hadmitted, htrees, evaluate_of_alike h (hok hadmitted) htrees.zipped.2⟩
  · exact .inl (hdeep hadmitted)

/-- A bracket around an exponent with a sign. -/
theorem parse_regrouped_exponent :
    ∃ tree tree', (new.parse "calc '2^-1'").1 = .ok tree ∧
      (new.parse "calc '2^[ -1]'").1 = .ok tree' ∧ tree.Alike SameWord 0 0 tree' := by
  obtain ⟨tree, hparse⟩ : ∃ tree, (new.parse "calc '2^-1'").1 = .ok tree :=
    ⟨_, by with_unfolding_all rfl⟩
  obtain ⟨d, closing, hencloses, -, -, -, hregrouped⟩ := parse_regrouped hparse
  have hinner : Encloses "calc '2^-1'" [⟨.int, "2", 6, 1⟩, ⟨.operator .power, "^", 7, 1⟩,
      ⟨.operator .minus, "-", 8, 1⟩, ⟨.int, "1", 9, 1⟩] ⟨.quote, "'", 10, 1⟩ :=
    ⟨⟨.command, "calc", 0, 4⟩, ⟨.quote, "'", 5, 1⟩, by decide +kernel⟩
  have htwo : Number.read? "2" = some 2 := by decide +kernel
  have hone : Number.read? "1" = some 1 := by decide +kernel
  obtain rfl : d = .widen .product (.widen .sign
      (.join .power ⟨.operator .power, "^", 7, 1⟩ rfl .signedPower
        (.widen .atom (.number ⟨.int, "2", 6, 1⟩ 2 (.inl rfl) htwo))
        (.sign .minus ⟨.operator .minus, "-", 8, 1⟩ rfl rfl
          (.widen .chain (.widen .atom (.number ⟨.int, "1", 9, 1⟩ 1 (.inl rfl) hone)))))) :=
    Derivation.tokens_injective (hencloses.unique hinner).1
  have htext : Spelled (envelope ("2" :: "^" :: Bracket.square.around ["-", "1"]))
      "calc '2^[ -1]'".toList :=
    .literal (.blank rfl (.literal (.literal (.literal (.literal (.blank rfl (.literal
      (.literal (.literal (.literal .nil))))))))))
  rcases hregrouped _ _ (.widen (.widen (.join (.widen .number)
      (.around .square (.sign (.widen (.widen .number))))))) htext with
    ⟨span, herror⟩ | ⟨tree', hparse', halike, -⟩
  · have hshallow : (new.parse "calc '2^[ -1]'").1.isOk = true := by decide +kernel
    rw [herror] at hshallow
    cases hshallow
  · exact ⟨tree, tree', hparse, hparse', halike⟩

end Session

end PromptCalc
