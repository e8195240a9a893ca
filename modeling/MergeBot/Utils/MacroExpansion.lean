import MergeBot.Conflict.Scanner
import MergeBot.Foundation.Replacement

/-!
# Macro expansion

`doMacroExpansion` applies eighteen rules one after the other, each with a scan over the
text that the rules before it have left. `doMacroExpansion_eq`: the scans end, and they
replace at once what stands between characters that are no letters or digits. An identifier
has underscores too, so that `doMacroExpansion_iff` holds: the result is the text with its
macros expanded exactly when no macro is part of a longer identifier behind or in front of
an underscore.
-/

namespace MergeBot

open Foundation

/-- The letters and digits of `std::isalnum` in the C locale. -/
def isAlnum (c : Char) : Bool := c.isAlphanum

/-- The characters of an identifier. -/
def isIdentifier (c : Char) : Bool := isAlnum c || c = '_'

/-- The macros and their expansions, in the order in which they are expanded. -/
def macroReplacements : List (Rule Char) :=
  [⟨"AT_LEAST_V_OR_202404".toList, "API_LEVEL_AT_LEAST(__ANDROID_API_V__, 202404)".toList⟩,
    ⟨"AT_LEAST_U_OR_202304".toList, "API_LEVEL_AT_LEAST(__ANDROID_API_U__, 202304)".toList⟩,
    ⟨"AT_LEAST_T_OR_202204".toList, "API_LEVEL_AT_LEAST(__ANDROID_API_T__, 202204)".toList⟩,
    ⟨"AT_LEAST_S_OR_202104".toList, "API_LEVEL_AT_LEAST(__ANDROID_API_S__, 202104)".toList⟩,
    ⟨"AT_LEAST_R_OR_202004".toList, "API_LEVEL_AT_LEAST(__ANDROID_API_R__, 202004)".toList⟩,
    ⟨"AT_LEAST_Q_OR_201904".toList, "API_LEVEL_AT_LEAST(__ANDROID_API_Q__, 201904)".toList⟩,
    ⟨"ANDROID_VERSION_V".toList, "__ANDROID_API_V__".toList⟩,
    ⟨"ANDROID_VERSION_U".toList, "__ANDROID_API_U__".toList⟩,
    ⟨"ANDROID_VERSION_T".toList, "__ANDROID_API_T__".toList⟩,
    ⟨"ANDROID_VERSION_S".toList, "__ANDROID_API_S__".toList⟩,
    ⟨"ANDROID_VERSION_R".toList, "__ANDROID_API_R__".toList⟩,
    ⟨"ANDROID_VERSION_Q".toList, "__ANDROID_API_Q__".toList⟩,
    ⟨"API_CHECK_V".toList, "(__ANDROID_API__ >= __ANDROID_API_V__)".toList⟩,
    ⟨"API_CHECK_U".toList, "(__ANDROID_API__ >= __ANDROID_API_U__)".toList⟩,
    ⟨"API_CHECK_T".toList, "(__ANDROID_API__ >= __ANDROID_API_T__)".toList⟩,
    ⟨"API_CHECK_S".toList, "(__ANDROID_API__ >= __ANDROID_API_S__)".toList⟩,
    ⟨"API_CHECK_R".toList, "(__ANDROID_API__ >= __ANDROID_API_R__)".toList⟩,
    ⟨"API_CHECK_Q".toList, "(__ANDROID_API__ >= __ANDROID_API_Q__)".toList⟩]

/-- The scan for one macro, from a position on; `none` means that it does not end. -/
def expandMacro (rule : Rule Char) : Nat → Text → Nat → Option Text
  | 0, _, _ => none
  | fuel + 1, result, pos =>
      match Search.findFrom rule.pattern result pos with
      | none => some result
      | some pos =>
          -- a macro that is part of a longer word is passed over
          if (pos = 0 ∨ ¬ isAlnum (result.getD (pos - 1) '\x00')) ∧
              (pos + rule.pattern.length = result.length ∨
                ¬ isAlnum (result.getD (pos + rule.pattern.length) '\x00')) then
            expandMacro rule fuel
              (result.take pos ++ rule.replacement ++ result.drop (pos + rule.pattern.length))
              (pos + rule.replacement.length)
          else expandMacro rule fuel result (pos + 1)

/-- Expand the macros one after the other. -/
def doMacroExpansion (code : Text) : Option Text :=
  macroReplacements.foldlM
    (fun result rule => expandMacro rule (result.length + 1) result 0) code

/-! ## Macros as identifiers -/

/-- An identifier, or the expansion of the macro that it is. -/
def expandWord (word : Text) : Text :=
  (macroReplacements.find? fun rule => rule.pattern = word).elim word Rule.replacement

/-- Each maximal identifier that is a macro replaced by its expansion; `word` has the
characters of the identifier that is being read. -/
def expandWords : Text → Text → Text
  | word, [] => expandWord word
  | word, c :: rest =>
      if isIdentifier c then expandWords (word ++ [c]) rest
      else expandWord word ++ c :: expandWords [] rest

/-- No macro stands in the code with an underscore next to it and neither a letter nor a digit
on the other side. -/
def NoMacroInWord (code : Text) : Prop :=
  ∀ rule ∈ macroReplacements, ∀ front back, code = front ++ rule.pattern ++ back →
    front.getLast? = some '_' ∨ back.head? = some '_' →
      front.getLast?.any isAlnum = true ∨ back.head?.any isAlnum = true

/-! ## The table -/

/-- The macros and their expansions do not overlap. -/
theorem macros_apart : Apart isAlnum macroReplacements where
  ends := by
    simp only [macroReplacements, String.reduceToList]
    decide +kernel
  patterns := by
    simp only [macroReplacements, String.reduceToList]
    decide +kernel
  beforeReplacement := by
    simp only [macroReplacements, String.reduceToList]
    decide +kernel
  afterReplacement := by
    simp only [macroReplacements, String.reduceToList]
    decide +kernel

/-- The macros are identifiers. -/
theorem macros_words : ∀ rule ∈ macroReplacements, rule.pattern.all isIdentifier = true := by
  simp only [macroReplacements, String.reduceToList]
  decide +kernel

theorem isIdentifier_of_isAlnum (c : Char) (alnum : isAlnum c = true) : isIdentifier c = true := by
  simp [isIdentifier, alnum]

/-- An identifier ends where neither a letter, a digit nor an underscore follows. -/
theorem edge_isIdentifier_iff (neighbour : Option Char) :
    edge isIdentifier neighbour = true ↔
      edge isAlnum neighbour = true ∧ neighbour ≠ some '_' := by
  cases neighbour <;> simp [edge, isIdentifier]

/-! ## One scan -/

/-- The test in front of a macro. -/
theorem validStart_iff (front back : Text) :
    (front.length = 0 ∨ ¬ isAlnum ((front ++ back).getD (front.length - 1) '\x00')) ↔
      edge isAlnum front.getLast? = true := by
  cases front using List.reverseRecOn with
  | nil => simp [edge]
  | append_singleton init last => simp [edge]

/-- The test behind a macro. -/
theorem validEnd_iff (front back : Text) :
    (front.length = (front ++ back).length ∨
        ¬ isAlnum ((front ++ back).getD front.length '\x00')) ↔
      edge isAlnum back.head? = true := by
  cases back <;> simp [edge]

/-- Where no pattern occurs, none is replaced. -/
theorem replaceFrom_absent (rule : Rule Char) (text rest : Text) (previous : Option Char)
    (absent : ∀ position < text.length, ¬ rule.pattern <+: (text ++ rest).drop position) :
    replaceFrom isAlnum [rule] previous 0 (text ++ rest) =
      text ++ replaceFrom isAlnum [rule] (lastOr previous text) 0 rest := by
  refine replaceFrom_walk fun front c back split other member => ?_
  obtain rfl := List.mem_singleton.mp member
  by_contra applies
  obtain ⟨after, same, -⟩ := (stands_iff isAlnum).mp (eq_true_of_ne_false applies)
  have inside : front.length < text.length := by
    rw [split, List.length_append]
    simp
  refine absent front.length inside ⟨after, ?_⟩
  rw [split, List.append_assoc, List.drop_left, same]

/-- A turn of the scan that finds the macro: it is replaced between two edges, and passed over
by one character elsewhere. -/
theorem expandMacro_found {rule : Rule Char} (fuel : Nat) (before front back : Text)
    (found : Search.find rule.pattern (front ++ (rule.pattern ++ back)) = some front.length) :
    expandMacro rule (fuel + 1) (before ++ (front ++ (rule.pattern ++ back))) before.length =
      if edge isAlnum (before ++ front).getLast? = true ∧ edge isAlnum back.head? = true then
        expandMacro rule fuel (before ++ front ++ rule.replacement ++ back)
          (before ++ front ++ rule.replacement).length
      else
        expandMacro rule fuel (before ++ front ++ (rule.pattern ++ back))
          ((before ++ front).length + 1) := by
  have pos_eq : front.length + before.length = (before ++ front).length := by
    rw [List.length_append, Nat.add_comm]
  have stop_eq : (before ++ front).length + rule.pattern.length =
      (before ++ front ++ rule.pattern).length := List.length_append.symm
  have text_eq : before ++ (front ++ (rule.pattern ++ back)) =
      before ++ front ++ (rule.pattern ++ back) := by
    rw [List.append_assoc]
  have start_iff := validStart_iff (before ++ front) (rule.pattern ++ back)
  have stop_iff := validEnd_iff (before ++ front ++ rule.pattern) back
  rw [List.append_assoc (before ++ front)] at stop_iff
  rw [expandMacro, Search.findFrom_append, found, Option.map_some, text_eq]
  simp only [pos_eq, stop_eq]
  simp only [start_iff, stop_iff]
  rw [List.take_left, ← List.append_assoc (before ++ front) rule.pattern, List.drop_left,
    ← List.length_append]

/-- A scan replaces what stands between edges in the text that is left. -/
theorem expandMacro_eq {rule : Rule Char} (member : rule ∈ macroReplacements) (fuel : Nat)
    (before text : Text) (enough : text.length < fuel) :
    expandMacro rule fuel (before ++ text) before.length =
      some (before ++ replaceFrom isAlnum [rule] before.getLast? 0 text) := by
  have single : [rule] ⊆ macroReplacements := by simpa using member
  obtain ⟨first, more, pattern, -⟩ := macros_apart.pattern_cons member
  induction fuel generalizing before text with
  | zero => omega
  | succ fuel inductionHypothesis =>
  cases found : Search.find rule.pattern text with
  | none =>
      have absent := Search.find_eq_none_iff.mp found
      have same := replaceFrom_absent rule text [] before.getLast? fun position _ here => by
          rw [List.append_nil] at here
          exact absent (here.isInfix.trans (List.drop_suffix position text).isInfix)
      simp only [List.append_nil, replaceFrom] at same
      rw [expandMacro, Search.findFrom_append, found]
      simp only [Option.map_none, same]
  | some position =>
      obtain ⟨back, here⟩ := Search.prefix_of_find found
      have first_one := Search.find_first found
      obtain ⟨front, front_length, rfl⟩ : ∃ front, front.length = position ∧
          text = front ++ (rule.pattern ++ back) := by
        refine ⟨text.take position, ?_, by rw [here, List.take_append_drop]⟩
        rw [List.length_take, Nat.min_eq_left (Search.find_le found)]
      subst front_length
      have last : lastOr before.getLast? front = (before ++ front).getLast? := by
        rw [List.getLast?_append, lastOr]
      have shorter : (more ++ back).length < fuel := by
        simp only [pattern, List.length_append, List.length_cons] at enough ⊢
        omega
      rw [expandMacro_found fuel before front back found,
        replaceFrom_absent rule front _ before.getLast? first_one, last]
      by_cases valid : edge isAlnum (before ++ front).getLast? = true ∧
          edge isAlnum back.head? = true
      · -- the scan goes on behind the expansion
        have backShorter : back.length < fuel := by
          rw [List.length_append] at shorter
          omega
        have rest := inductionHypothesis (before ++ front ++ rule.replacement) back backShorter
        rw [replaceFrom_previous macros_apart single valid.2 _ (lastOr none rule.pattern)] at rest
        rw [if_pos valid, replaceFrom_replace (macros_apart.mono single) List.mem_cons_self
          valid.1 valid.2, rest]
        simp only [List.append_assoc]
      · -- the scan goes on behind the first character of the macro
        have free : ∀ other ∈ [rule],
            stands isAlnum (before ++ front).getLast? other.pattern (first :: (more ++ back)) =
              false := by
          intro other isRule
          obtain rfl := List.mem_singleton.mp isRule
          by_contra applies
          obtain ⟨after, same, start, stop⟩ :=
            (stands_iff isAlnum).mp (eq_true_of_ne_false applies)
          rw [← List.cons_append, ← pattern, List.append_cancel_left_eq] at same
          exact valid ⟨start, same ▸ stop⟩
        have rest := inductionHypothesis (before ++ front ++ [first]) (more ++ back) shorter
        rw [List.getLast?_concat] at rest
        have step_eq : (before ++ front).length + 1 = (before ++ front ++ [first]).length := by
          simp [Nat.add_assoc]
        rw [if_neg valid, pattern, List.cons_append, replaceFrom_keep free, step_eq,
          List.append_cons, rest]
        simp only [List.append_assoc, List.cons_append, List.nil_append]

/-! ## All scans -/

/-- The scans replace at once what stands between characters that are no letters or digits. -/
theorem doMacroExpansion_eq (code : Text) :
    doMacroExpansion code = some (replaceWhole isAlnum macroReplacements code) := by
  have scans : ∀ rules ⊆ macroReplacements, ∀ text : Text,
      rules.foldlM (fun result rule => expandMacro rule (result.length + 1) result 0) text =
        some (rules.foldl (fun text rule => replaceWhole isAlnum [rule] text) text) := by
    intro rules subset
    induction rules with
    | nil => exact fun text => rfl
    | cons rule rules inductionHypothesis =>
        intro text
        have scan := expandMacro_eq (subset List.mem_cons_self) (text.length + 1) [] text
          (Nat.lt_succ_self _)
        rw [List.nil_append, List.length_nil] at scan
        rw [List.foldlM_cons, scan]
        exact inductionHypothesis (fun other member => subset (List.mem_cons_of_mem _ member)) _
  rw [doMacroExpansion, scans _ (List.Subset.refl _), replaceWhole_foldl macros_apart]

/-- Between the edges of identifiers, the macros that are identifiers are replaced. -/
theorem replaceFrom_eq_expandWords (text word : Text) {previous : Option Char}
    (start : edge isIdentifier previous = true) (inWord : word.all isIdentifier = true) :
    replaceFrom isIdentifier macroReplacements previous 0 (word ++ text) =
      expandWords word text := by
  have apart := macros_apart.finer isIdentifier_of_isAlnum
  induction text generalizing previous word with
  | nil =>
      rw [replaceFrom_word apart macros_words inWord [] start rfl, replaceFrom, List.append_nil,
        expandWords, expandWord]
  | cons c rest inductionHypothesis =>
      rw [expandWords]
      split
      · rename_i identifier
        rw [← inductionHypothesis _ start (by simp [inWord, identifier]), List.append_assoc,
          List.singleton_append]
      · rename_i other
        have stop : edge isIdentifier (some c) = true := by simpa [edge] using other
        have words := replaceFrom_word apart macros_words inWord (c :: rest) start stop
        have later := inductionHypothesis [] stop rfl
        rw [List.nil_append] at later
        rw [words, replaceFrom_keep (free_of_edge apart (List.Subset.refl _)
          (c :: rest) stop _), later,
          expandWord]

/-- A macro is expanded inside of an identifier exactly when the edges differ. -/
theorem noMacroInWord_iff (code : Text) :
    NoMacroInWord code ↔ SameEdges isAlnum isIdentifier macroReplacements none code := by
  have alnum_iff (neighbour : Option Char) :
      neighbour.any isAlnum = true ↔ edge isAlnum neighbour = false := by
    cases neighbour <;> simp [edge]
  constructor
  · intro outside front back split rule member applies
    obtain ⟨rest, rfl, start, stop⟩ := (stands_iff isAlnum).mp applies
    rw [lastOr, Option.or_none] at start ⊢
    have clear := outside rule member front rest (by rw [split, List.append_assoc])
    simp only [alnum_iff, start, stop, Bool.true_eq_false, or_self, imp_false, not_or] at clear
    exact (stands_iff isIdentifier).mpr ⟨rest, rfl,
      (edge_isIdentifier_iff _).mpr ⟨start, clear.1⟩, (edge_isIdentifier_iff _).mpr ⟨stop, clear.2⟩⟩
  · intro same rule member front back split underscore
    rw [alnum_iff, alnum_iff]
    by_contra between
    simp only [not_or, Bool.not_eq_false] at between
    have coarsely : stands isAlnum (lastOr none front) rule.pattern (rule.pattern ++ back) = true :=
      (stands_iff isAlnum).mpr ⟨back, rfl, by simpa [lastOr] using between.1, between.2⟩
    have finely := same front (rule.pattern ++ back) (by rw [split, List.append_assoc]) rule member
      coarsely
    obtain ⟨rest, cut, start, stop⟩ := (stands_iff isIdentifier).mp finely
    obtain rfl := List.append_cancel_left cut
    rw [lastOr, Option.or_none, edge_isIdentifier_iff] at start
    rw [edge_isIdentifier_iff] at stop
    exact underscore.elim start.2 stop.2

/-- The scans end, and they expand the macros of the code exactly when no macro is part of an
identifier behind or in front of an underscore, with an edge on the other side. -/
theorem doMacroExpansion_iff (code : Text) :
    doMacroExpansion code = some (expandWords [] code) ↔ NoMacroInWord code := by
  rw [doMacroExpansion_eq, Option.some_inj, noMacroInWord_iff,
    ← replaceWhole_eq_iff isIdentifier_of_isAlnum macros_apart]
  have expanded : replaceFrom isIdentifier macroReplacements none 0 code = expandWords [] code :=
    replaceFrom_eq_expandWords code [] rfl rfl
  rw [replaceWhole, replaceWhole, expanded]

/-- A part of a longer identifier is rewritten. -/
theorem doMacroExpansion_rewrites_part :
    ¬ ∀ code, doMacroExpansion code = some (expandWords [] code) := by
  intro claimed
  exact absurd (claimed "MY_API_CHECK_V".toList) (by decide +kernel)

end MergeBot
