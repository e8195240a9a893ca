import Mathlib.Data.List.Infix

/-!
# Replacing whole words by rules

A rule replaces a pattern where it stands between two edges, that is, where no word
character is next to it. `replaceWhole` applies many rules to a text at once.

If no two patterns overlap and no replacement overlaps a pattern (`Apart`), then applying
the rules one after the other is the same (`replaceWhole_foldl`), and a finer notion of
word characters gives another result as soon as one pattern stands only between the
coarser edges (`replaceWhole_eq_iff`).
-/

namespace MergeBot.Foundation

universe u

variable {α : Type u}

/-- A pattern and what takes its place. -/
structure Rule (α : Type u) where
  pattern : List α
  replacement : List α
deriving DecidableEq, Repr

/-- No word character is there. -/
def edge (isWord : α → Bool) (neighbour : Option α) : Bool :=
  neighbour.all fun c => !isWord c

/-- The last character of a text, or the one in front of it. -/
def lastOr (previous : Option α) (text : List α) : Option α :=
  text.getLast?.or previous

@[simp]
theorem lastOr_nil (previous : Option α) : lastOr previous ([] : List α) = previous := rfl

@[simp]
theorem lastOr_cons (previous : Option α) (c : α) (rest : List α) :
    lastOr previous (c :: rest) = lastOr (some c) rest := by
  rw [lastOr, lastOr, List.getLast?_cons]
  cases rest.getLast? <;> rfl

/-- One of two texts continues the other. -/
def Clash (first second : List α) : Prop :=
  first <+: second ∨ second <+: first

instance [DecidableEq α] (first second : List α) : Decidable (Clash first second) :=
  inferInstanceAs (Decidable (_ ∨ _))

theorem Clash.symm {first second : List α} (clash : Clash first second) : Clash second first :=
  clash.elim .inr .inl

/-- Texts that begin the same text clash. -/
theorem clash_of_append {first second rest other : List α}
    (same : first ++ rest = second ++ other) : Clash first second :=
  List.prefix_or_prefix_of_prefix (List.prefix_append first rest)
    (same ▸ List.prefix_append second other)

/-- Patterns begin and end with word characters, and no pattern or replacement overlaps a
pattern. -/
structure Apart (isWord : α → Bool) (rules : List (Rule α)) : Prop where
  ends : ∀ rule ∈ rules, rule.pattern.head?.any isWord = true ∧
    rule.pattern.getLast?.any isWord = true
  patterns : ∀ rule ∈ rules, ∀ other ∈ rules, ∀ offset < rule.pattern.length,
    Clash (rule.pattern.drop offset) other.pattern → offset = 0 ∧ rule = other
  beforeReplacement : ∀ rule ∈ rules, ∀ other ∈ rules, ∀ offset < rule.pattern.length,
    ¬ Clash (rule.pattern.drop offset) other.replacement
  afterReplacement : ∀ rule ∈ rules, ∀ other ∈ rules, ∀ offset < other.replacement.length,
    ¬ Clash (other.replacement.drop offset) rule.pattern

namespace Apart

variable {isWord : α → Bool} {rules : List (Rule α)} (apart : Apart isWord rules)

include apart

/-- A part of the rules. -/
theorem mono {some_ : List (Rule α)} (subset : some_ ⊆ rules) : Apart isWord some_ where
  ends := fun rule member => apart.ends rule (subset member)
  patterns := fun rule member other otherMember =>
    apart.patterns rule (subset member) other (subset otherMember)
  beforeReplacement := fun rule member other otherMember =>
    apart.beforeReplacement rule (subset member) other (subset otherMember)
  afterReplacement := fun rule member other otherMember =>
    apart.afterReplacement rule (subset member) other (subset otherMember)

/-- A pattern with its first character. -/
theorem pattern_cons {rule : Rule α} (member : rule ∈ rules) :
    ∃ c rest, rule.pattern = c :: rest ∧ isWord c = true := by
  have first := (apart.ends rule member).1
  cases pattern : rule.pattern with
  | nil => simp [pattern] at first
  | cons c rest => exact ⟨c, rest, rfl, by simpa [pattern] using first⟩

/-- Behind a pattern there is no edge for another one. -/
theorem edge_lastOr {rule : Rule α} (member : rule ∈ rules) (previous : Option α) :
    edge isWord (lastOr previous rule.pattern) = false := by
  have last := (apart.ends rule member).2
  cases found : rule.pattern.getLast? with
  | none => simp [found] at last
  | some c =>
      rw [found, Option.any_some] at last
      simp [lastOr, found, edge, last]

end Apart

variable [DecidableEq α] (isWord : α → Bool)

/-- A pattern stands at the beginning of a text, between two edges. -/
def stands (previous : Option α) (pattern text : List α) : Bool :=
  pattern.isPrefixOf text && edge isWord previous &&
    edge isWord (text.drop pattern.length).head?

theorem stands_iff {previous : Option α} {pattern text : List α} :
    stands isWord previous pattern text = true ↔
      ∃ rest, text = pattern ++ rest ∧ edge isWord previous = true ∧
        edge isWord rest.head? = true := by
  simp only [stands, Bool.and_eq_true, List.isPrefixOf_iff_prefix]
  constructor
  · rintro ⟨⟨⟨rest, rfl⟩, start⟩, stop⟩
    rw [List.drop_left] at stop
    exact ⟨rest, rfl, start, stop⟩
  · rintro ⟨rest, rfl, start, stop⟩
    refine ⟨⟨List.prefix_append pattern rest, start⟩, ?_⟩
    rwa [List.drop_left]

/-- Replace what stands in a text; `skipped` characters belong to a pattern that has been
replaced. -/
def replaceFrom (rules : List (Rule α)) : Option α → Nat → List α → List α
  | _, _, [] => []
  | _, skipped + 1, c :: rest => replaceFrom rules (some c) skipped rest
  | previous, 0, c :: rest =>
      match rules.find? fun rule => stands isWord previous rule.pattern (c :: rest) with
      | some rule =>
          rule.replacement ++ replaceFrom rules (some c) (rule.pattern.length - 1) rest
      | none => c :: replaceFrom rules (some c) 0 rest

/-- Replace everything that stands in a text, all rules at once. -/
def replaceWhole (rules : List (Rule α)) (text : List α) : List α :=
  replaceFrom isWord rules none 0 text

/-- Only one rule applies at a place. -/
theorem Apart.unique {rules : List (Rule α)} (apart : Apart isWord rules) {rule other : Rule α}
    (member : rule ∈ rules) (otherMember : other ∈ rules) {previous otherPrevious : Option α}
    {text : List α} {otherWord : α → Bool}
    (first : stands isWord previous rule.pattern text = true)
    (second : stands otherWord otherPrevious other.pattern text = true) : rule = other := by
  obtain ⟨rest, text_eq, -⟩ := (stands_iff isWord).mp first
  obtain ⟨otherRest, same, -⟩ := (stands_iff otherWord).mp second
  obtain ⟨c, _, pattern, -⟩ := apart.pattern_cons member
  have clash : Clash (rule.pattern.drop 0) other.pattern :=
    clash_of_append (text_eq.symm.trans same)
  exact (apart.patterns rule member other otherMember 0 (by simp [pattern]) clash).2

section Equations

variable {isWord} {rules : List (Rule α)}

/-- The characters of a replaced pattern are skipped. -/
theorem replaceFrom_skip (previous : Option α) (skipped rest : List α) :
    replaceFrom isWord rules previous skipped.length (skipped ++ rest) =
      replaceFrom isWord rules (lastOr previous skipped) 0 rest := by
  induction skipped generalizing previous with
  | nil => rfl
  | cons c skipped inductionHypothesis =>
      rw [List.length_cons, List.cons_append, replaceFrom, inductionHypothesis, lastOr_cons]

/-- Where no rule applies, the character stays. -/
theorem replaceFrom_keep {previous : Option α} {c : α} {rest : List α}
    (free : ∀ rule ∈ rules, stands isWord previous rule.pattern (c :: rest) = false) :
    replaceFrom isWord rules previous 0 (c :: rest) =
      c :: replaceFrom isWord rules (some c) 0 rest := by
  have none : rules.find? (fun rule => stands isWord previous rule.pattern (c :: rest)) = none :=
    List.find?_eq_none.mpr fun rule member => by simp [free rule member]
  rw [replaceFrom, none]

/-- Where no rule applies, the text begins as before. -/
theorem head_replaceFrom {previous : Option α} {text : List α}
    (free : ∀ rule ∈ rules, stands isWord previous rule.pattern text = false) :
    (replaceFrom isWord rules previous 0 text).head? = text.head? := by
  cases text with
  | nil => rfl
  | cons c rest => rw [replaceFrom_keep free, List.head?_cons, List.head?_cons]

/-- Where no rule applies, the text stays. -/
theorem replaceFrom_walk {previous : Option α} {text rest : List α}
    (free : ∀ front c back, text = front ++ c :: back → ∀ rule ∈ rules,
      stands isWord (lastOr previous front) rule.pattern (c :: back ++ rest) = false) :
    replaceFrom isWord rules previous 0 (text ++ rest) =
      text ++ replaceFrom isWord rules (lastOr previous text) 0 rest := by
  induction text generalizing previous with
  | nil => rfl
  | cons c text inductionHypothesis =>
      have later : replaceFrom isWord rules (some c) 0 (text ++ rest) =
          text ++ replaceFrom isWord rules (lastOr (some c) text) 0 rest :=
        inductionHypothesis fun front next back split rule member => by
          simpa using free (c :: front) next back (by rw [split, List.cons_append]) rule member
      have here : ∀ rule ∈ rules, stands isWord previous rule.pattern (c :: (text ++ rest)) = false :=
        free [] c text rfl
      rw [List.cons_append, replaceFrom_keep here, later, lastOr_cons, List.cons_append]

/-- A rule that applies is the only one, and its pattern is replaced. -/
theorem replaceFrom_replace (apart : Apart isWord rules) {rule : Rule α} (member : rule ∈ rules)
    {previous : Option α} (start : edge isWord previous = true) {rest : List α}
    (stop : edge isWord rest.head? = true) :
    replaceFrom isWord rules previous 0 (rule.pattern ++ rest) =
      rule.replacement ++ replaceFrom isWord rules (lastOr none rule.pattern) 0 rest := by
  have here : stands isWord previous rule.pattern (rule.pattern ++ rest) = true :=
    (stands_iff isWord).mpr ⟨rest, rfl, start, stop⟩
  obtain ⟨c, more, pattern, -⟩ := apart.pattern_cons member
  have found : rules.find? (fun other => stands isWord previous other.pattern
      (rule.pattern ++ rest)) = some rule := by
    cases found : rules.find? fun other => stands isWord previous other.pattern
        (rule.pattern ++ rest) with
    | none => exact absurd here (List.find?_eq_none.mp found rule member)
    | some other =>
        have applies := List.find?_some found
        rw [apart.unique isWord (List.mem_of_find?_eq_some found) member applies here]
  rw [pattern, List.cons_append] at found ⊢
  rw [replaceFrom, found]
  simp only [pattern, List.length_cons, Nat.add_sub_cancel]
  rw [replaceFrom_skip, lastOr_cons]

/-- A rule applies at the beginning of a text, or none does. -/
theorem stands_or_free (isWord : α → Bool) (rules : List (Rule α)) (previous : Option α)
    (text : List α) :
    (∃ rule ∈ rules, ∃ rest, text = rule.pattern ++ rest ∧ edge isWord previous = true ∧
        edge isWord rest.head? = true) ∨
      ∀ rule ∈ rules, stands isWord previous rule.pattern text = false := by
  by_cases free : ∀ rule ∈ rules, stands isWord previous rule.pattern text = false
  · exact .inr free
  · simp only [not_forall, Bool.not_eq_false] at free
    obtain ⟨rule, member, applies⟩ := free
    exact .inl ⟨rule, member, (stands_iff isWord).mp applies⟩

end Equations

section Overlaps

variable {isWord} {all rules : List (Rule α)} (apart : Apart isWord all) (subset : rules ⊆ all)

include apart subset

/-- No rule applies at the beginning of a text that does not begin with a word character. -/
theorem free_of_edge (text : List α) (begins : edge isWord text.head? = true)
    (previous : Option α) :
    ∀ rule ∈ rules, stands isWord previous rule.pattern text = false := by
  intro rule member
  by_contra applies
  obtain ⟨rest, rfl, -⟩ := (stands_iff isWord).mp (eq_true_of_ne_false applies)
  obtain ⟨c, more, pattern, word⟩ := apart.pattern_cons (subset member)
  simp [pattern, edge, word] at begins

/-- What is in front of a text that does not begin with a word character makes no difference. -/
theorem replaceFrom_previous {text : List α} (begins : edge isWord text.head? = true)
    (previous other : Option α) :
    replaceFrom isWord rules previous 0 text = replaceFrom isWord rules other 0 text := by
  cases text with
  | nil => rfl
  | cons c rest =>
      rw [replaceFrom_keep (free_of_edge apart subset _ begins previous),
        replaceFrom_keep (free_of_edge apart subset _ begins other)]

omit apart subset in
/-- No rule applies behind a word character. -/
theorem free_of_word {previous : Option α} (inside : edge isWord previous = false)
    (text : List α) : ∀ rule ∈ rules, stands isWord previous rule.pattern text = false := by
  intro rule member
  simp [stands, inside]

/-- Inside of a pattern no other rule applies. -/
theorem replaceFrom_pattern {rule : Rule α} (member : rule ∈ all) {previous : Option α}
    {rest : List α}
    (free : ∀ other ∈ rules, stands isWord previous other.pattern (rule.pattern ++ rest) = false) :
    replaceFrom isWord rules previous 0 (rule.pattern ++ rest) =
      rule.pattern ++ replaceFrom isWord rules (lastOr previous rule.pattern) 0 rest := by
  refine replaceFrom_walk fun front c back split other otherMember => ?_
  cases front with
  | nil =>
      rw [List.nil_append] at split
      rw [lastOr_nil, ← split]
      exact free other otherMember
  | cons first front =>
      by_contra applies
      obtain ⟨more, same, -⟩ := (stands_iff isWord).mp (eq_true_of_ne_false applies)
      have here : rule.pattern.drop (first :: front).length = c :: back := by
        rw [split, List.drop_left]
      have inside : (first :: front).length < rule.pattern.length := by
        rw [split, List.length_append]
        simp
      have clash : Clash (rule.pattern.drop (first :: front).length) other.pattern :=
        here ▸ clash_of_append same
      have zero := (apart.patterns rule member other (subset otherMember) _ inside clash).1
      simp at zero

/-- Inside of a replacement no rule applies. -/
theorem replaceFrom_replacement {rule : Rule α} (member : rule ∈ all) (previous : Option α)
    (rest : List α) :
    replaceFrom isWord rules previous 0 (rule.replacement ++ rest) =
      rule.replacement ++ replaceFrom isWord rules (lastOr previous rule.replacement) 0 rest := by
  refine replaceFrom_walk fun front c back split other otherMember => ?_
  by_contra applies
  obtain ⟨more, same, -⟩ := (stands_iff isWord).mp (eq_true_of_ne_false applies)
  have here : rule.replacement.drop front.length = c :: back := by
    rw [split, List.drop_left]
  have inside : front.length < rule.replacement.length := by
    rw [split, List.length_append]
    simp
  apply apart.afterReplacement other (subset otherMember) rule member _ inside
  exact here ▸ clash_of_append same

/-- A text that clashes with no replacement was there before, if it is there afterwards. -/
theorem replaceFrom_eq_append {text : List α}
    (clear : ∀ offset < text.length, ∀ rule ∈ rules, ¬ Clash (text.drop offset) rule.replacement)
    {previous : Option α} {before after : List α}
    (same : replaceFrom isWord rules previous 0 before = text ++ after) :
    ∃ rest, before = text ++ rest ∧
      after = replaceFrom isWord rules (lastOr previous text) 0 rest := by
  induction text generalizing previous before with
  | nil => exact ⟨before, rfl, same.symm⟩
  | cons c text inductionHypothesis =>
      cases before with
      | nil => simp [replaceFrom] at same
      | cons first before =>
          rcases stands_or_free isWord rules previous (first :: before) with
            ⟨rule, member, rest, split, start, stop⟩ | free
          · rw [split, replaceFrom_replace (apart.mono subset) member start stop] at same
            exact absurd (clash_of_append same).symm (clear 0 (by simp) rule member)
          · rw [replaceFrom_keep free, List.cons_append] at same
            obtain ⟨rfl, later⟩ := List.cons.inj same
            have laterClear : ∀ offset < text.length, ∀ rule ∈ rules,
                ¬ Clash (text.drop offset) rule.replacement := fun offset inside rule member =>
              clear (offset + 1) (by simpa using inside) rule member
            obtain ⟨rest, rfl, after_eq⟩ := inductionHypothesis laterClear later
            exact ⟨rest, rfl, by rw [after_eq, lastOr_cons]⟩

end Overlaps

/-! ## Words -/

omit [DecidableEq α] in
/-- A word up to an edge is all there is up to the edge. -/
theorem takeWhile_word {word rest : List α} (inWord : word.all isWord = true)
    (stop : edge isWord rest.head? = true) : (word ++ rest).takeWhile isWord = word := by
  rw [List.takeWhile_append_of_pos (List.all_eq_true.mp inWord)]
  cases rest with
  | nil => simp
  | cons c rest =>
      have outside : isWord c = false := by simpa [edge] using stop
      simp [outside]

/-- A word is replaced when it is one of the patterns. -/
theorem replaceFrom_word {isWord : α → Bool} {rules : List (Rule α)} (apart : Apart isWord rules)
    (words : ∀ rule ∈ rules, rule.pattern.all isWord = true) {word : List α}
    (inWord : word.all isWord = true) (rest : List α) {previous : Option α}
    (start : edge isWord previous = true) (stop : edge isWord rest.head? = true) :
    replaceFrom isWord rules previous 0 (word ++ rest) =
      (rules.find? fun rule => rule.pattern = word).elim word Rule.replacement ++
        replaceFrom isWord rules (lastOr previous word) 0 rest := by
  cases found : rules.find? fun rule => rule.pattern = word with
  | some rule =>
      have member := List.mem_of_find?_eq_some found
      obtain rfl : rule.pattern = word := by simpa using List.find?_some found
      rw [replaceFrom_replace apart member start stop]
      exact congrArg _ (replaceFrom_previous apart (List.Subset.refl rules) stop _ _)
  | none =>
      refine replaceFrom_walk fun front c back split rule member => ?_
      cases front with
      | nil =>
          rw [List.nil_append] at split
          rw [lastOr_nil, ← split]
          by_contra applies
          obtain ⟨after, same, -, afterStop⟩ :=
            (stands_iff isWord).mp (eq_true_of_ne_false applies)
          have whole : word = rule.pattern := by
            rw [← takeWhile_word isWord inWord stop, same,
              takeWhile_word isWord (words rule member) afterStop]
          exact List.find?_eq_none.mp found rule member (by simp [whole])
      | cons first front =>
          have inside : edge isWord (lastOr previous (first :: front)) = false := by
            obtain ⟨last, isLast⟩ := Option.isSome_iff_exists.mp
              (List.getLast?_isSome.mpr (List.cons_ne_nil first front))
            have lastMember : last ∈ word := by
              rw [split]
              exact List.mem_append_left _ (List.mem_of_getLast? isLast)
            simp [lastOr, isLast, edge, List.all_eq_true.mp inWord last lastMember]
          exact free_of_word inside _ rule member

/-! ## One rule after the other -/

omit [DecidableEq α] in
/-- In front of a word character the two passes see the same. -/
theorem previous_of_word {isWord : α → Bool} {previous outPrevious : Option α} {c : α}
    {text : List α} (near : outPrevious = previous ∨ edge isWord (c :: text).head? = true)
    (word : isWord c = true) : outPrevious = previous := by
  refine near.resolve_right fun begins => ?_
  simp [edge, word] at begins

/-- Where no other rule is applied, a rule is applied to what the others leave only if it is
applied to the text. -/
theorem stands_of_pass {isWord : α → Bool} {rules : List (Rule α)} {rule : Rule α}
    (apart : Apart isWord (rules ++ [rule])) {previous outPrevious : Option α} {c : α}
    {text : List α} (near : outPrevious = previous ∨ edge isWord (c :: text).head? = true)
    (free : ∀ other ∈ rules, stands isWord previous other.pattern (c :: text) = false)
    (applies : stands isWord outPrevious rule.pattern
      (c :: replaceFrom isWord rules (some c) 0 text) = true) :
    stands isWord previous rule.pattern (c :: text) = true := by
  have ruleMember : rule ∈ rules ++ [rule] := List.mem_append_right _ List.mem_cons_self
  have rulesSubset : rules ⊆ rules ++ [rule] := List.subset_append_left rules [rule]
  obtain ⟨first, more, pattern, word⟩ := apart.pattern_cons ruleMember
  obtain ⟨after, split, start, stop⟩ := (stands_iff isWord).mp applies
  have isFirst : c = first := by
    rw [pattern, List.cons_append] at split
    exact (List.cons.inj split).1
  rw [← replaceFrom_keep free] at split
  obtain ⟨rest, before, rfl⟩ := replaceFrom_eq_append apart rulesSubset
    (fun offset inside other inRules => apart.beforeReplacement rule ruleMember other
      (rulesSubset inRules) offset inside) split
  rw [head_replaceFrom (free_of_word (apart.edge_lastOr ruleMember previous) rest)] at stop
  exact (stands_iff isWord).mpr
    ⟨rest, before, previous_of_word near (isFirst ▸ word) ▸ start, stop⟩

/-- A rule that is applied after others is applied with them. The induction is on the length of
the text; behind a replaced pattern the two passes see different characters, but there the text
goes on with an edge. -/
theorem replaceFrom_pass {isWord : α → Bool} {rules : List (Rule α)} {rule : Rule α}
    (apart : Apart isWord (rules ++ [rule])) (bound : Nat) {text : List α}
    (short : text.length < bound) {previous outPrevious : Option α}
    (near : outPrevious = previous ∨ edge isWord text.head? = true) :
    replaceFrom isWord [rule] outPrevious 0 (replaceFrom isWord rules previous 0 text) =
      replaceFrom isWord (rules ++ [rule]) previous 0 text := by
  induction bound generalizing text previous outPrevious with
  | zero => omega
  | succ bound inductionHypothesis =>
  have ruleMember : rule ∈ rules ++ [rule] := List.mem_append_right _ List.mem_cons_self
  have rulesSubset : rules ⊆ rules ++ [rule] := List.subset_append_left rules [rule]
  have ruleSubset : [rule] ⊆ rules ++ [rule] := List.subset_append_right rules [rule]
  obtain ⟨first, more, pattern, word⟩ := apart.pattern_cons ruleMember
  rcases stands_or_free isWord rules previous text with
    ⟨other, member, rest, rfl, start, stop⟩ | free
  · -- another rule applies here
    obtain ⟨_, _, otherPattern, -⟩ := apart.pattern_cons (rulesSubset member)
    have shorter : rest.length < bound := by
      simp only [otherPattern, List.length_append, List.length_cons] at short
      omega
    rw [replaceFrom_replace (apart.mono rulesSubset) member start stop,
      replaceFrom_replace apart (rulesSubset member) start stop,
      replaceFrom_replacement apart ruleSubset (rulesSubset member),
      inductionHypothesis shorter (.inr stop)]
  cases text with
  | nil => rfl
  | cons c text =>
  have shorter : text.length < bound := Nat.lt_of_succ_lt_succ short
  by_cases applies : stands isWord previous rule.pattern (c :: text) = true
  · obtain ⟨rest, split, start, stop⟩ := (stands_iff isWord).mp applies
    have isFirst : c = first := by
      rw [pattern, List.cons_append] at split
      exact (List.cons.inj split).1
    have samePrevious := previous_of_word near (isFirst ▸ word)
    rw [split] at free short ⊢
    have restShorter : rest.length < bound := by
      simp only [pattern, List.length_append, List.length_cons] at short
      omega
    have last : lastOr previous rule.pattern = lastOr none rule.pattern := by
      rw [pattern, lastOr_cons, lastOr_cons]
    have stillStops : edge isWord
        (replaceFrom isWord rules (lastOr none rule.pattern) 0 rest).head? = true := by
      rw [head_replaceFrom (free_of_edge apart rulesSubset _ stop _)]
      exact stop
    rw [replaceFrom_pattern apart rulesSubset ruleMember free, samePrevious, last,
      replaceFrom_replace apart ruleMember start stop,
      replaceFrom_replace (apart.mono ruleSubset) List.mem_cons_self start stillStops,
      inductionHypothesis restShorter (.inl rfl)]
  · have allFree : ∀ other ∈ rules ++ [rule],
        stands isWord previous other.pattern (c :: text) = false := by
      intro other member
      rcases List.mem_append.mp member with inRules | isRule
      · exact free other inRules
      · rw [List.mem_singleton.mp isRule]
        exact eq_false_of_ne_true applies
    have stillFree : ∀ other ∈ [rule], stands isWord outPrevious other.pattern
        (c :: replaceFrom isWord rules (some c) 0 text) = false := by
      intro other member
      rw [List.mem_singleton.mp member]
      exact eq_false_of_ne_true fun still => applies (stands_of_pass apart near free still)
    rw [replaceFrom_keep free, replaceFrom_keep stillFree, replaceFrom_keep allFree,
      inductionHypothesis shorter (.inl rfl)]

/-- Rules that are applied one after the other are applied at once. -/
theorem replaceWhole_foldl {isWord : α → Bool} {rules : List (Rule α)}
    (apart : Apart isWord rules) (text : List α) :
    rules.foldl (fun text rule => replaceWhole isWord [rule] text) text =
      replaceWhole isWord rules text := by
  induction rules using List.reverseRecOn with
  | nil =>
      have none : replaceFrom isWord [] none 0 (text ++ []) =
          text ++ replaceFrom isWord [] (lastOr none text) 0 [] :=
        replaceFrom_walk (by simp)
      simpa [replaceWhole, replaceFrom] using none.symm
  | append_singleton rules rule inductionHypothesis =>
      rw [List.foldl_append, inductionHypothesis (apart.mono (List.subset_append_left rules [rule]))]
      exact replaceFrom_pass apart _ (Nat.lt_succ_self _) (.inl rfl)

/-! ## Coarser and finer edges -/

omit [DecidableEq α] in
/-- More word characters. -/
theorem Apart.finer {coarse fine : α → Bool} (finer : ∀ c, coarse c = true → fine c = true)
    {rules : List (Rule α)} (apart : Apart coarse rules) : Apart fine rules where
  ends := fun rule member => by
    have both := apart.ends rule member
    simp only [Option.any_eq_true] at both ⊢
    obtain ⟨⟨c, begins, word⟩, d, ends, last⟩ := both
    exact ⟨⟨c, begins, finer c word⟩, d, ends, finer d last⟩
  patterns := apart.patterns
  beforeReplacement := apart.beforeReplacement
  afterReplacement := apart.afterReplacement

omit [DecidableEq α] in
/-- An edge between fewer characters. -/
theorem edge_of_finer {coarse fine : α → Bool} (finer : ∀ c, coarse c = true → fine c = true)
    {neighbour : Option α} (between : edge fine neighbour = true) :
    edge coarse neighbour = true := by
  cases neighbour with
  | none => rfl
  | some c =>
      have outside : fine c = false := by simpa [edge] using between
      have coarseOutside : coarse c = false := by
        by_contra inside
        simp [finer c (eq_true_of_ne_false inside)] at outside
      simp [edge, coarseOutside]

/-- Every pattern that stands in a text between coarse edges stands between fine ones. -/
def SameEdges (coarse fine : α → Bool) (rules : List (Rule α)) (previous : Option α)
    (text : List α) : Prop :=
  ∀ front back, text = front ++ back → ∀ rule ∈ rules,
    stands coarse (lastOr previous front) rule.pattern back = true →
      stands fine (lastOr previous front) rule.pattern back = true

section Edges

variable {coarse fine : α → Bool} (finer : ∀ c, coarse c = true → fine c = true)
  {rules : List (Rule α)} (apart : Apart coarse rules)

include finer in
theorem stands_of_finer {previous : Option α} {pattern text : List α}
    (applies : stands fine previous pattern text = true) :
    stands coarse previous pattern text = true := by
  obtain ⟨rest, split, start, stop⟩ := (stands_iff fine).mp applies
  exact (stands_iff coarse).mpr ⟨rest, split, edge_of_finer finer start, edge_of_finer finer stop⟩

/-- The edges of a text, at its first character and behind it. -/
theorem sameEdges_cons_iff {previous : Option α} {c : α} {text : List α} :
    SameEdges coarse fine rules previous (c :: text) ↔
      (∀ rule ∈ rules, stands coarse previous rule.pattern (c :: text) = true →
        stands fine previous rule.pattern (c :: text) = true) ∧
      SameEdges coarse fine rules (some c) text := by
  constructor
  · intro same
    refine ⟨same [] (c :: text) rfl, fun front back split rule member => ?_⟩
    have later := same (c :: front) back (by rw [split, List.cons_append]) rule member
    rwa [lastOr_cons] at later
  · rintro ⟨here, later⟩ front back split rule member
    cases front with
    | nil =>
        rw [List.nil_append] at split
        rw [lastOr_nil, ← split]
        exact here rule member
    | cons first front =>
        rw [List.cons_append] at split
        obtain ⟨rfl, rest⟩ := List.cons.inj split
        rw [lastOr_cons]
        exact later front back rest rule member

/-- Behind a text in which the edges are the same. -/
theorem sameEdges_walk {previous : Option α} {text rest : List α}
    (same : ∀ front c back, text = front ++ c :: back → ∀ rule ∈ rules,
      stands coarse (lastOr previous front) rule.pattern (c :: back ++ rest) = true →
        stands fine (lastOr previous front) rule.pattern (c :: back ++ rest) = true) :
    SameEdges coarse fine rules previous (text ++ rest) ↔
      SameEdges coarse fine rules (lastOr previous text) rest := by
  induction text generalizing previous with
  | nil => rfl
  | cons c text inductionHypothesis =>
      rw [List.cons_append, sameEdges_cons_iff, lastOr_cons]
      have later : SameEdges coarse fine rules (some c) (text ++ rest) ↔
          SameEdges coarse fine rules (lastOr (some c) text) rest :=
        inductionHypothesis fun front next back split rule member => by
          simpa using same (c :: front) next back (by rw [split, List.cons_append]) rule member
      rw [later]
      exact and_iff_right (same [] c text rfl)

include apart in
/-- Behind a pattern that stands, the edges are those of the rest. -/
theorem sameEdges_pattern_iff {rule : Rule α} (member : rule ∈ rules) {previous : Option α}
    {rest : List α} (applies : stands fine previous rule.pattern (rule.pattern ++ rest) = true) :
    SameEdges coarse fine rules previous (rule.pattern ++ rest) ↔
      SameEdges coarse fine rules (lastOr previous rule.pattern) rest := by
  refine sameEdges_walk fun front c back split other otherMember coarsely => ?_
  have inside : front.length < rule.pattern.length := by
    rw [split, List.length_append]
    simp
  have here : rule.pattern.drop front.length = c :: back := by
    rw [split, List.drop_left]
  obtain ⟨more, same, -⟩ := (stands_iff coarse).mp coarsely
  have clash : Clash (rule.pattern.drop front.length) other.pattern :=
    here ▸ clash_of_append same
  obtain ⟨zero, rfl⟩ := apart.patterns rule member other otherMember _ inside clash
  obtain rfl := List.length_eq_zero_iff.mp zero
  rw [List.nil_append] at split
  rwa [lastOr_nil, ← split]

include finer apart in
/-- The results for coarse and for fine edges are the same exactly when no pattern stands only
between coarse ones. -/
theorem replaceFrom_eq_iff (bound : Nat) {text : List α} (short : text.length < bound)
    (previous : Option α) :
    replaceFrom coarse rules previous 0 text = replaceFrom fine rules previous 0 text ↔
      SameEdges coarse fine rules previous text := by
  induction bound generalizing text previous with
  | zero => omega
  | succ bound inductionHypothesis =>
  rcases stands_or_free coarse rules previous text with
    ⟨rule, member, rest, rfl, start, stop⟩ | free
  · obtain ⟨first, more, pattern, -⟩ := apart.pattern_cons member
    have last : lastOr previous rule.pattern = lastOr none rule.pattern := by
      rw [pattern, lastOr_cons, lastOr_cons]
    have coarsely : stands coarse previous rule.pattern (rule.pattern ++ rest) = true :=
      (stands_iff coarse).mpr ⟨rest, rfl, start, stop⟩
    by_cases applies : stands fine previous rule.pattern (rule.pattern ++ rest) = true
    · -- the pattern is replaced in both results
      have shorter : rest.length < bound := by
        simp only [pattern, List.length_append, List.length_cons] at short
        omega
      obtain ⟨_, same, fineStart, fineStop⟩ := (stands_iff fine).mp applies
      obtain rfl := List.append_cancel_left same
      rw [replaceFrom_replace apart member start stop,
        replaceFrom_replace (apart.finer finer) member fineStart fineStop,
        List.append_right_inj, inductionHypothesis shorter,
        sameEdges_pattern_iff apart member applies, last]
    · -- the pattern is replaced in one result and stays in the other
      have free : ∀ other ∈ rules,
          stands fine previous other.pattern (rule.pattern ++ rest) = false := by
        intro other otherMember
        by_contra otherApplies
        have otherApplies := eq_true_of_ne_false otherApplies
        obtain rfl := apart.unique coarse otherMember member
          (stands_of_finer finer otherApplies) coarsely
        exact applies otherApplies
      rw [replaceFrom_replace apart member start stop,
        replaceFrom_pattern (apart.finer finer) (List.Subset.refl rules) member free]
      refine iff_of_false (fun same => ?_) fun same => ?_
      · apply apart.beforeReplacement rule member rule member 0 (by simp [pattern])
        exact (clash_of_append same).symm
      · exact applies (same [] _ rfl rule member coarsely)
  · cases text with
    | nil =>
        refine iff_of_true rfl fun front back split rule member coarsely => ?_
        obtain ⟨rfl, rfl⟩ := List.nil_eq_append_iff.mp split
        rw [lastOr_nil, free rule member] at coarsely
        exact Bool.noConfusion coarsely
    | cons c text =>
        have fineFree : ∀ rule ∈ rules,
            stands fine previous rule.pattern (c :: text) = false := by
          intro rule member
          by_contra applies
          have coarsely := stands_of_finer finer (eq_true_of_ne_false applies)
          simp [free rule member] at coarsely
        rw [replaceFrom_keep free, replaceFrom_keep fineFree, List.cons_inj_right,
          inductionHypothesis (Nat.lt_of_succ_lt_succ short), sameEdges_cons_iff]
        refine (and_iff_right fun rule member coarsely => ?_).symm
        simp [free rule member] at coarsely

include finer apart in
/-- Coarse and fine edges give the same text exactly when no pattern stands only between coarse
ones. -/
theorem replaceWhole_eq_iff (text : List α) :
    replaceWhole coarse rules text = replaceWhole fine rules text ↔
      SameEdges coarse fine rules none text :=
  replaceFrom_eq_iff finer apart _ (Nat.lt_succ_self _) none

end Edges

end MergeBot.Foundation
