import PromptCalc.Proofs.DerivedPhrases
import PromptCalc.Proofs.Prompts
import PromptCalc.Proofs.Unambiguous

/-!
# Parsing is derivation within the limits

A prompt gives a tree exactly if its inner tokens are derived as a sum that keeps within the limits
on levels and heights. A derived sum outside the limits goes too deep, and every other prompt has
no tree either. The limit on heights is checked where a binary node is made, so signs may add to
it, and the limit on levels counts right operands, too. Chains of powers behind signs show how far
both reach.
-/
namespace PromptCalc

open Equation

theorem read_derivation (setting : Setting) (d : Derivation .sum) :
    let result := read setting 0 ⟨d.tokens, 0⟩
    (Admitted setting 0 d → result = (.ok (.ofDerivation setting d), ⟨[], 0⟩)) ∧
    (¬ Admitted setting 0 d → TooDeep result) := by
  have h := (opens setting d).climb (maxDepth + 1) 0 0 [] (Nat.lt_succ_self _) (Nat.zero_le 1) .nil
    (.nil 0) (.nil _)
  rw [List.append_nil] at h
  exact h

namespace Session

variable {s : Session} {text : String} {closing : Token}

/-- A derived sum in an envelope is read as its tree, or goes too deep outside the limits. -/
theorem parse_derivation {d : Derivation .sum} (h : Encloses text d.tokens closing) :
    (Admitted (settingOf s.answer closing) 0 d → (s.parse text).1 = .ok (d.tree s.answer)) ∧
    (¬ Admitted (settingOf s.answer closing) 0 d →
      ∃ span, (s.parse text).1 = .error ⟨.equation ⟨.tooDeep, span⟩, text⟩) := by
  obtain ⟨hok, hdeep⟩ := read_derivation (settingOf s.answer closing) d
  rw [s.parse_of_encloses h, Nesting.fault?_derivation]
  refine ⟨fun had => ?_, fun had => ?_⟩
  · rw [hok had]
    rfl
  · obtain ⟨span, hspan⟩ := hdeep had
    refine ⟨span, ?_⟩
    rcases hread : read (settingOf s.answer closing) 0 ⟨d.tokens, 0⟩ with ⟨result, r⟩
    rw [hread] at hspan
    dsimp only at hspan ⊢
    rw [hspan]

theorem exists_derivation_of_parse {tree : Expr} (h : (s.parse text).1 = .ok tree) :
    ∃ (d : Derivation .sum) (closing : Token), Encloses text d.tokens closing ∧
      Admitted (settingOf s.answer closing) 0 d ∧ d.tree s.answer = tree := by
  obtain ⟨inner, closing, hencloses⟩ := s.exists_encloses_of_parse h
  rw [s.parse_of_encloses hencloses] at h
  split at h
  · simp at h
  · split at h
    · simp at h
    · next p r hread =>
      split at h
      · next hahead =>
        obtain rfl := Except.ok.inj h
        obtain ⟨c, d, hd, -⟩ := climb_sound _ _ _ _ _ _ hread
        obtain ⟨sum, hsum⟩ := Derivation.exists_recast c.widens_sum d
        have htaken : inner = d.tokens ++ r.ahead := hd.ahead
        have htokens : inner = sum.tokens := by
          rw [hsum.tokens, htaken, hahead, List.append_nil]
        refine ⟨sum, closing, htokens ▸ hencloses, hd.admitted.recast hsum, ?_⟩
        rw [hsum.tree, hd.phrase]
        rfl
      · simp at h

/-- A prompt has a tree exactly if its tokens are the word `calc` and, in quotes, a sum within the
limits, whose tree it is. A sum has one derivation, and its numerals are numbers. -/
theorem parse_ok_iff_derivation (s : Session) (text : String) :
    (∀ tree, (s.parse text).1 = .ok tree ↔
      ∃ (d : Derivation .sum) (closing : Token), Encloses text d.tokens closing ∧
        d.levels ≤ maxDepth ∧ (d.tree s.answer).BinaryWithin maxHeight ∧
        d.tree s.answer = tree) ∧
    (∀ d e : Derivation .sum, d.tokens = e.tokens → d = e) ∧
    ∀ t ∈ tokenize text, t.kind = .int ∨ t.kind = .float →
      ∃ x, Number.read? t.literal = some x := by
  refine ⟨fun tree => ⟨fun h => ?_, ?_⟩, fun _ _ => Derivation.tokens_injective,
    fun t => exists_read_of_mem_tokenize⟩
  · obtain ⟨d, closing, hencloses, ⟨hlevels, hheight⟩, htree⟩ := exists_derivation_of_parse h
    exact ⟨d, closing, hencloses, Nat.zero_add d.levels ▸ hlevels, hheight, htree⟩
  · rintro ⟨d, closing, hencloses, hlevels, hheight, rfl⟩
    exact (parse_derivation hencloses).1 ⟨(Nat.zero_add d.levels).symm ▸ hlevels, hheight⟩

end Session

/-- The equation `1 ^ 1 ^ .. ^ 1` with the given number of operators. -/
def powerChain : Nat → List Char
  | 0 => ['1']
  | n + 1 => powerChain n ++ ['^', '1']

def signedChain (signs powers : Nat) : List Char := List.replicate signs '-' ++ powerChain powers

theorem quote_notMem_signedChain (signs powers : Nat) : '\'' ∉ signedChain signs powers := by
  have hchain : '\'' ∉ powerChain powers := by
    induction powers with
    | zero => decide
    | succ n ih => simp [powerChain, ih]
  simp [signedChain, hchain]

def chainLevels (powers : Nat) : Nat := if powers = 0 then 1 else 2

theorem exists_one (offset : Nat) :
    ∃ d : Derivation .atom, d.tokens = Token.scan offset ['1'] ∧ d.nesting = 0 ∧ d.levels = 1 ∧
      ∀ ans, (d.tree ans).height = 1 := by
  obtain ⟨x, hx⟩ : ∃ x, Number.read? "1" = some x := ⟨_, rfl⟩
  refine ⟨.number ⟨.int, "1", offset, 1⟩ x (.inl rfl) hx, ?_, rfl, rfl, fun _ => rfl⟩
  rw [Token.scan_cons rfl]
  exact congrArg _ (Token.scan_nil _).symm

theorem exists_powerChain (offset n : Nat) :
    ∃ d : Derivation .chain, d.tokens = Token.scan offset (powerChain n) ∧ d.nesting = 0 ∧
      d.levels = chainLevels n ∧ ∀ ans, (d.tree ans).height = n + 1 := by
  induction n with
  | zero =>
    obtain ⟨d, hd⟩ := exists_one offset
    exact ⟨.widen .atom d, hd⟩
  | succ n ih =>
    obtain ⟨left, htokens, hnesting, hlevels, htree⟩ := ih
    let start := offset + byteSize (powerChain n)
    obtain ⟨right, htokens', hnesting', hlevels', htree'⟩ := exists_one (start + 1)
    have hpower : Token.scan start ['^', '1'] =
        ⟨.operator .power, "^", start, 1⟩ :: Token.scan (start + 1) ['1'] :=
      Token.scan_cons rfl
    refine ⟨.join .power ⟨.operator .power, "^", start, 1⟩ rfl .power left right, ?_, ?_, ?_, ?_⟩
    · rw [powerChain, Token.scan_append (.cons rfl rfl), hpower, Derivation.tokens, htokens,
        htokens']
    · simp [Derivation.nesting, hnesting, hnesting']
    · simp only [Derivation.levels, hlevels, hlevels', chainLevels]
      split <;> simp
    · intro ans
      simp [Derivation.tree, Expr.height, htree ans, htree' ans]

theorem exists_signedChain (offset signs powers : Nat) :
    ∃ d : Derivation .sign, d.tokens = Token.scan offset (signedChain signs powers) ∧
      d.nesting = signs ∧ d.levels = signs + chainLevels powers ∧
      ∀ ans, (d.tree ans).height = signs + powers + 1 ∧
        (d.tree ans).BinaryWithin (powers + 1) := by
  induction signs generalizing offset with
  | zero =>
    obtain ⟨d, htokens, hnesting, hlevels, htree⟩ := exists_powerChain offset powers
    refine ⟨.widen .chain d, htokens, hnesting, hlevels.trans (Nat.zero_add _).symm, fun ans => ?_⟩
    have hheight := htree ans
    exact ⟨hheight.trans (by omega), Expr.binaryWithin_of_height_le (e := d.tree ans) hheight.le⟩
  | succ signs ih =>
    obtain ⟨operand, htokens, hnesting, hlevels, htree⟩ := ih (offset + 1)
    have hminus : Token.scan offset (signedChain (signs + 1) powers) =
        ⟨.operator .minus, "-", offset, 1⟩ ::
          Token.scan (offset + 1) (signedChain signs powers) := by
      rw [signedChain, List.replicate_succ, List.cons_append, Token.scan_cons rfl]
      rfl
    refine ⟨.widen .signed (.sign .minus ⟨.operator .minus, "-", offset, 1⟩ rfl rfl operand),
      ?_, ?_, ?_, fun ans => ?_⟩
    · rw [hminus, ← htokens]
      rfl
    · exact congrArg (· + 1) hnesting
    · simp only [Derivation.levels, hlevels]
      omega
    · obtain ⟨hheight, hwithin⟩ := htree ans
      refine ⟨?_, hwithin⟩
      simp only [Derivation.tree, Expr.height, hheight]
      omega

theorem exists_encloses_signedChain (signs powers : Nat) :
    ∃ (d : Derivation .sum) (closing : Token),
      Encloses (prompt (String.ofList (signedChain signs powers))) d.tokens closing ∧
      d.nesting = signs ∧ d.levels = signs + chainLevels powers ∧
      ∀ ans, (d.tree ans).height = signs + powers + 1 ∧ (d.tree ans).BinaryWithin (powers + 1) := by
  obtain ⟨d, htokens, hnesting, hlevels, htree⟩ := exists_signedChain 6 signs powers
  obtain ⟨sum, hsum⟩ := Derivation.exists_recast Category.sign.widens_sum d
  obtain ⟨closing, hencloses⟩ := encloses_prompt_ofList (quote_notMem_signedChain signs powers)
  rw [← htokens, ← hsum.tokens] at hencloses
  refine ⟨sum, closing, hencloses, hsum.nesting.trans hnesting, hsum.levels.trans hlevels,
    fun ans => ?_⟩
  rw [hsum.tree]
  exact htree ans

/-- The levels of a phrase that stands in no bracket and behind no sign. -/
def Category.flatLevels : Category → Nat
  | atom | signed => 1
  | chain | sign => 2
  | product => 3
  | sum => 4

/-- Up to the next bracket or sign, right operands take three levels at most. -/
theorem Derivation.levels_le {c : Category} (d : Derivation c) :
    d.levels ≤ 4 * d.nesting + c.flatLevels := by
  induction d with
  | number | answer => simp [levels, nesting, Category.flatLevels]
  | bracket | sign =>
    simp only [levels, nesting, Category.flatLevels] at *
    omega
  | widen included phrase ih =>
    simp only [levels, nesting]
    cases included <;> simp only [Category.flatLevels] at * <;> omega
  | join op t names joins left right ihl ihr =>
    simp only [levels, nesting]
    cases joins <;> simp only [Category.flatLevels] at * <;> omega

/-- Signs add at most 98 to the greatest height that binary nodes may have. -/
theorem Derivation.height_le {c : Category} {ans : Float} (d : Derivation c)
    (hlevels : d.levels ≤ maxDepth) (hwithin : (d.tree ans).BinaryWithin maxHeight) :
    (d.tree ans).unsigned.height ≤ maxHeight ∧ (d.tree ans).height ≤ maxHeight + 98 := by
  obtain ⟨hsigns, htall⟩ := d.signs_lt_levels ans
  have hunsigned : (d.tree ans).unsigned.height ≤ maxHeight :=
    Expr.unsigned_height_le (by decide) hwithin
  have hheight := (d.tree ans).height_eq_signs_add
  have hmaxDepth : maxDepth = 100 := rfl
  have hmaxHeight : maxHeight = 1000 := rfl
  refine ⟨hunsigned, ?_⟩
  by_cases hone : 1 < (d.tree ans).unsigned.height
  · have := htall hone
    omega
  · omega

namespace Session

variable (s : Session)

theorem exists_parse_signedChain {signs powers : Nat} (hpowers : powers < maxHeight)
    (hlevels : signs + chainLevels powers ≤ maxDepth) :
    ∃ tree, (s.parse (prompt (String.ofList (signedChain signs powers)))).1 = .ok tree ∧
      tree.height = signs + powers + 1 := by
  obtain ⟨d, closing, hencloses, -, hd, htree⟩ := exists_encloses_signedChain signs powers
  have hadmitted : Admitted (settingOf s.answer closing) 0 d :=
    ⟨by rw [Nat.zero_add, hd]; exact hlevels, (htree s.answer).2.mono hpowers⟩
  exact ⟨d.tree s.answer, (parse_derivation hencloses).1 hadmitted, (htree s.answer).1⟩

theorem height_le_of_parse {text : String} {tree : Expr} (h : (s.parse text).1 = .ok tree) :
    tree.unsigned.height ≤ maxHeight ∧ tree.height ≤ maxHeight + 98 := by
  obtain ⟨d, closing, -, ⟨hlevels, hwithin⟩, rfl⟩ := exists_derivation_of_parse h
  exact d.height_le (Nat.zero_add d.levels ▸ hlevels) hwithin

/-- A tree is as high as its signs and the tree under them, which alone keeps to the limit. Every
height up to 98 above the limit is that of some tree. -/
theorem height_of_parse (s : Session) :
    (∀ text tree, (s.parse text).1 = .ok tree → tree.unsigned.height ≤ maxHeight ∧
      (tree.height ≤ maxHeight ↔ tree.signs ≤ maxHeight - tree.unsigned.height)) ∧
    ∀ n, (∃ text tree, (s.parse text).1 = .ok tree ∧ tree.height = n) ↔
      0 < n ∧ n ≤ maxHeight + 98 := by
  refine ⟨fun text tree h => ?_, fun n => ⟨?_, ?_⟩⟩
  · obtain ⟨hunsigned, -⟩ := s.height_le_of_parse h
    have hheight := tree.height_eq_signs_add
    exact ⟨hunsigned, by omega⟩
  · rintro ⟨text, tree, h, rfl⟩
    exact ⟨tree.height_pos, (s.height_le_of_parse h).2⟩
  · rintro ⟨hpos, hle⟩
    have hmaxDepth : maxDepth = 100 := rfl
    have hmaxHeight : maxHeight = 1000 := rfl
    by_cases hlow : n ≤ maxHeight
    · have hlevels : 0 + chainLevels (n - 1) ≤ maxDepth := by
        simp only [chainLevels]
        split <;> omega
      obtain ⟨tree, htree, hheight⟩ := s.exists_parse_signedChain (by omega) hlevels
      exact ⟨_, tree, htree, by omega⟩
    · have hlevels : n - maxHeight + chainLevels (maxHeight - 1) ≤ maxDepth := by
        simp only [chainLevels]
        split <;> omega
      obtain ⟨tree, htree, hheight⟩ := s.exists_parse_signedChain (by omega) hlevels
      exact ⟨_, tree, htree, by omega⟩

/-- A sign before a tree of the greatest height. -/
theorem exists_parse_above_maxHeight :
    ∃ tree, (new.parse (prompt (String.ofList (signedChain 1 999)))).1 = .ok tree ∧
      maxHeight < tree.height := by
  obtain ⟨tree, htree, hheight⟩ :=
    @exists_parse_signedChain new 1 999 (by decide) (by decide)
  exact ⟨tree, htree, by rw [hheight]; decide⟩

/-- A sum in an envelope has its tree exactly if it keeps to both limits. A low tree goes too deep
by its levels alone, which are few as long as few signs and brackets stand in one another. -/
theorem parse_ok_iff_of_encloses {s : Session} {text : String} {closing : Token}
    {d : Derivation .sum} (h : Encloses text d.tokens closing) :
    ((s.parse text).1 = .ok (d.tree s.answer) ↔
      d.levels ≤ maxDepth ∧ (d.tree s.answer).BinaryWithin maxHeight) ∧
    ((∃ span, (s.parse text).1 = .error ⟨.equation ⟨.tooDeep, span⟩, text⟩) ↔
      maxDepth < d.levels ∨ ¬ (d.tree s.answer).BinaryWithin maxHeight) ∧
    ((d.tree s.answer).height ≤ maxHeight →
      ((s.parse text).1 = .ok (d.tree s.answer) ↔ d.levels ≤ maxDepth)) ∧
    (d.nesting ≤ 24 → d.levels ≤ maxDepth) := by
  obtain ⟨hok, hdeep⟩ := parse_derivation (s := s) h
  have hadmitted : Admitted (settingOf s.answer closing) 0 d ↔
      d.levels ≤ maxDepth ∧ (d.tree s.answer).BinaryWithin maxHeight := by
    rw [Admitted, Nat.zero_add]
    rfl
  rw [hadmitted] at hok hdeep
  have hiff : (s.parse text).1 = .ok (d.tree s.answer) ↔
      d.levels ≤ maxDepth ∧ (d.tree s.answer).BinaryWithin maxHeight := by
    refine ⟨fun hparse => ?_, hok⟩
    by_contra hnot
    obtain ⟨span, hspan⟩ := hdeep hnot
    rw [hspan] at hparse
    cases hparse
  refine ⟨hiff, ⟨?_, fun hnot => hdeep ?_⟩, fun hheight => ?_, fun hnesting => ?_⟩
  · rintro ⟨span, hspan⟩
    by_contra hnot
    rw [not_or, Nat.not_lt, not_not] at hnot
    rw [hok hnot] at hspan
    cases hspan
  · rintro ⟨hlevels, hwithin⟩
    rcases hnot with hnot | hnot
    · omega
    · exact hnot hwithin
  · rw [hiff]
    exact and_iff_left (Expr.binaryWithin_of_height_le hheight)
  · have hlevels : d.levels ≤ 4 * d.nesting + 4 := d.levels_le
    have hmaxDepth : maxDepth = 100 := rfl
    omega

/-- Of the signs before a number, 99 are read. -/
theorem exists_parse_of_signs :
    ∃ d : Derivation .sum, d.nesting = 99 ∧
      (new.parse (prompt (String.ofList (signedChain 99 0)))).1 = .ok (d.tree new.answer) := by
  obtain ⟨d, closing, hencloses, hnesting, hlevels, htree⟩ := exists_encloses_signedChain 99 0
  have hheight : (d.tree new.answer).height ≤ maxHeight := by
    rw [(htree new.answer).1]
    decide
  refine ⟨d, hnesting, ((parse_ok_iff_of_encloses hencloses).2.2.1 hheight).mpr ?_⟩
  rw [hlevels]
  decide

/-- A hundred signs before a number go too deep, though they are not more than a hundred. -/
theorem exists_tooDeep_of_signs :
    ∃ (d : Derivation .sum) (closing : Token),
      Encloses (prompt (String.ofList (signedChain 100 0))) d.tokens closing ∧
      d.nesting ≤ 100 ∧ (d.tree new.answer).height ≤ maxHeight ∧
      ∃ span, (new.parse (prompt (String.ofList (signedChain 100 0)))).1 =
        .error ⟨.equation ⟨.tooDeep, span⟩, prompt (String.ofList (signedChain 100 0))⟩ := by
  obtain ⟨d, closing, hencloses, hnesting, hlevels, htree⟩ := exists_encloses_signedChain 100 0
  refine ⟨d, closing, hencloses, hnesting.le, ?_, (parse_derivation hencloses).2 fun had => ?_⟩
  · rw [(htree new.answer).1]
    decide
  · have hdepth := had.1
    rw [hlevels] at hdepth
    exact absurd hdepth (by decide)

end Session

end PromptCalc
