import BacktrackRegex.Proofs.MatcherSource.Collected
import BacktrackRegex.Proofs.MatcherSource.Lines
import BacktrackRegex.Proofs.Text.Numeral
import Mathlib.Data.List.Nodup

/-!
# Names of the items of a source file

A source file defines two items for each matcher, a static and a function. The static is named like
the function, but in upper case. The numbers keep the names of different matchers apart, whatever
the stem is. What keeps the static of a matcher and its function apart is that the stem is not its
own upper case.
-/

namespace BacktrackRegex.MatcherSource

/-- The name of the item that a line begins with a keyword, up to the sign behind the name. -/
def named? (keyword : String) (stop : Char) (line : List Char) : Option String :=
  (line.dropPrefix? keyword.toList).map fun rest => String.ofList (rest.takeWhile (· != stop))

/-- The name of the static or of the function that a line begins, if it begins one. -/
def itemName? (line : List Char) : Option String :=
  named? "static " ':' line <|> named? "fn " '(' line

/-- The names of the items that a source file defines, in their order. -/
def itemNames (source : String) : List String :=
  (source.toList.splitOn '\n').filterMap itemName?

/-- The names of the items that some lines begin. -/
def namesIn (lines : List String) : List String :=
  lines.filterMap fun line => itemName? line.toList

/-- A stem with a number. -/
def numbered (stem : String) (index : Nat) : String :=
  stem ++ "_" ++ index.repr

/-! ## Names on lines -/

/-- What stands in front of a sign is read up to the sign. -/
theorem takeWhile_append_stop {stop : Char} {name : List Char} (h : stop ∉ name)
    (rest : List Char) : (name ++ stop :: rest).takeWhile (· != stop) = name := by
  rw [List.takeWhile_append_of_pos]
  · simp
  · intro c hc
    have hne : c ≠ stop := fun he => h (he ▸ hc)
    simpa using hne

theorem named?_append {stop : Char} {name : String} (keyword : String) (h : stop ∉ name.toList)
    (rest : List Char) :
    named? keyword stop (keyword.toList ++ (name.toList ++ stop :: rest)) = some name := by
  have hdrop : (keyword.toList ++ (name.toList ++ stop :: rest)).dropPrefix? keyword.toList =
      some (name.toList ++ stop :: rest) :=
    List.dropPrefix?_eq_some_iff.mpr ⟨keyword.toList, rfl, by simp⟩
  rw [named?, hdrop, Option.map_some, takeWhile_append_stop h, String.ofList_toList]

/-- A line that begins with another letter than the keywords begins no item. -/
theorem itemName?_cons {c : Char} (hs : c ≠ 's') (hf : c ≠ 'f') (rest : List Char) :
    itemName? (c :: rest) = none := by
  have hdrop (d : Char) (keyword : List Char) (hd : c ≠ d) :
      (c :: rest).dropPrefix? (d :: keyword) = none := by
    rw [List.dropPrefix?, if_neg (by simpa using hd)]
  unfold itemName? named?
  simp [hdrop, hs, hf]

theorem itemName?_static {name : String} (h : ':' ∉ name.toList) (rest : List Char) :
    itemName? ("static ".toList ++ (name.toList ++ ':' :: rest)) = some name := by
  rw [itemName?, named?_append "static " h]
  rfl

theorem itemName?_fn {name : String} (h : '(' ∉ name.toList) (rest : List Char) :
    itemName? ("fn ".toList ++ (name.toList ++ '(' :: rest)) = some name := by
  rw [itemName?, named?_append "fn " h]
  rfl

variable {lines more : List String} {name : String}

theorem namesIn_append : namesIn (lines ++ more) = namesIn lines ++ namesIn more :=
  List.filterMap_append

theorem namesIn_cons_of_none {line : String} (h : itemName? line.toList = none) :
    namesIn (line :: lines) = namesIn lines :=
  List.filterMap_cons_none h

theorem namesIn_cons_of_some {line : String} (h : itemName? line.toList = some name) :
    namesIn (line :: lines) = name :: namesIn lines :=
  List.filterMap_cons_some h

/-- Lines that are moved to the right begin no items. -/
theorem namesIn_indent (lines : List String) : namesIn (indent lines) = [] := by
  unfold namesIn indent
  rw [List.filterMap_map, List.filterMap_eq_nil_iff]
  intro line _
  rw [Function.comp_apply]
  split
  · next hempty =>
    rw [String.isEmpty_iff.mp hempty]
    rfl
  · rw [String.toList_append]
    exact itemName?_cons (by decide) (by decide) _

/-- Lines between braces begin no items, unless the head does. -/
theorem namesIn_block (head : String) (body : List String) (tail : String) :
    namesIn (block head body tail) = (itemName? (head ++ " \x7b").toList).toList := by
  have hclose : namesIn ["\x7d" ++ tail] = [] := by
    apply namesIn_cons_of_none
    rw [String.toList_append]
    exact itemName?_cons (by decide) (by decide) _
  rw [block, List.cons_append]
  cases h : itemName? (head ++ " \x7b").toList with
  | none => rw [namesIn_cons_of_none h, namesIn_append, namesIn_indent, hclose]; rfl
  | some name => rw [namesIn_cons_of_some h, namesIn_append, namesIn_indent, hclose]; rfl

/-- The registry entry of a matcher is a static. -/
theorem namesIn_registryEntry (h : ':' ∉ (Text.upper name).toList) (pattern : String)
    (p : Program) : namesIn (registryEntry name pattern p) = [Text.upper name] := by
  have hhead : ("static " ++ Text.upper name ++ ": CompiledRegexp = CompiledRegexp" ++
      " \x7b").toList = "static ".toList ++ ((Text.upper name).toList ++
        ':' :: " CompiledRegexp = CompiledRegexp \x7b".toList) := by
    simp
  rw [registryEntry, namesIn_cons_of_none, namesIn_block, hhead, itemName?_static h]
  · rfl
  · exact itemName?_cons (by decide) (by decide) _

/-- The function of a matcher is the only item that its lines begin. -/
theorem namesIn_matcherFunction (h : '(' ∉ name.toList) (p : Program) :
    namesIn (matcherFunction name p) = [name] := by
  have hhead : ("fn " ++ name ++ "(").toList = "fn ".toList ++ (name.toList ++ '(' :: []) := by
    simp
  have hrest : itemName? (") -> bool" ++ " \x7b").toList = none :=
    itemName?_cons (by decide) (by decide) _
  rw [matcherFunction, namesIn_append, namesIn_append, namesIn_indent, namesIn_block, hrest,
    namesIn_cons_of_none, namesIn_cons_of_some]
  · rfl
  · rw [hhead, itemName?_fn h]
  · exact itemName?_cons (by decide) (by decide) _

/-- A matcher consists of its static and its function. -/
theorem namesIn_matcher (hcolon : ':' ∉ name.toList) (hparen : '(' ∉ name.toList)
    (pattern : String) (p : Program) :
    namesIn (matcher name pattern p) = [Text.upper name, name] := by
  have hupper : ':' ∉ (Text.upper name).toList := fun h =>
    hcolon (Text.mem_of_mem_upper h (by decide) (by decide))
  rw [matcher, namesIn_append, namesIn_append, namesIn_registryEntry hupper,
    namesIn_matcherFunction hparen]
  rfl

/-! ## Numbered names -/

/-- What stands in front of the first of a sign and what stands behind it are determined. -/
theorem append_stop_inj {stop : Char} {xs ys us vs : List Char} (hx : stop ∉ xs) (hy : stop ∉ ys) :
    xs ++ stop :: us = ys ++ stop :: vs ↔ xs = ys ∧ us = vs := by
  constructor
  · intro h
    have hxy : xs = ys := by
      rw [← takeWhile_append_stop hx us, h, takeWhile_append_stop hy]
    subst hxy
    exact ⟨rfl, by simpa using h⟩
  · rintro ⟨rfl, rfl⟩
    rfl

/-- A name with a number determines both of them, since a numeral has no underscore. -/
theorem numbered_inj {s t : String} {i j : Nat} :
    numbered s i = numbered t j ↔ s = t ∧ i = j := by
  constructor
  · intro h
    have hunderscore (n : Nat) : '_' ∉ (Text.decimal n).reverse := by
      intro hmem
      have := Text.isDigit_of_mem_decimal (List.mem_reverse.mp hmem)
      exact absurd this (by decide)
    have hchars (s : String) (i : Nat) : (numbered s i).toList.reverse =
        (Text.decimal i).reverse ++ '_' :: s.toList.reverse := by
      simp [numbered, Text.decimal_eq]
    have hreverse : (numbered s i).toList.reverse = (numbered t j).toList.reverse := by rw [h]
    rw [hchars, hchars, append_stop_inj (hunderscore i) (hunderscore j), List.reverse_inj,
      List.reverse_inj, String.toList_inj] at hreverse
    refine ⟨hreverse.2, ?_⟩
    rw [← Text.decimalValue_decimal i, hreverse.1, Text.decimalValue_decimal]
  · rintro ⟨rfl, rfl⟩
    rfl

/-- The upper case of a stem with a number. -/
theorem upper_numbered (stem : String) (index : Nat) :
    Text.upper (numbered stem index) = numbered (Text.upper stem) index := by
  have hunderscore : Text.upper "_" = "_" := Text.upper_of_lt (by simp)
  have hnumeral : Text.upper index.repr = index.repr := by
    refine Text.upper_of_lt fun c hc => ?_
    rw [Nat.toList_repr, ← Text.decimal_eq] at hc
    have hdigit := Char.isDigit_iff_toNat.mp (Text.isDigit_of_mem_decimal hc)
    exact Nat.lt_of_le_of_lt hdigit.2 (by decide)
  rw [numbered, Text.upper_append, Text.upper_append, hunderscore, hnumeral, numbered]

/-- Two stems with the same numbers have different names as long as they are different. -/
theorem nodup_pairs_iff (s t : String) (n : Nat) :
    ((List.range n).flatMap fun i => [numbered s i, numbered t i]).Nodup ↔ n = 0 ∨ s ≠ t := by
  rw [List.nodup_flatMap]
  constructor
  · rintro ⟨hpair, -⟩
    by_cases hn : n = 0
    · exact Or.inl hn
    · have hfirst := hpair 0 (List.mem_range.mpr (Nat.pos_of_ne_zero hn))
      exact Or.inr (by simpa [numbered_inj] using hfirst)
  · intro h
    refine ⟨fun i hi => ?_, List.nodup_range.imp fun {i j} hij => ?_⟩
    · have hne : s ≠ t := h.resolve_left fun hn => by simp [hn] at hi
      simpa [numbered_inj] using hne
    · have hapart (stem stem' : String) : numbered stem i ≠ numbered stem' j := by
        simp [numbered_inj, hij]
      simp [List.disjoint_left, hapart]

/-! ## Names in a source file -/

namespace Generator

/-- A stem that ends neither a name nor a line. Every identifier is one. -/
def IsStem (stem : String) : Prop :=
  ∀ c ∈ stem.toList, c ≠ ':' ∧ c ≠ '(' ∧ c ≠ '\n'

theorem IsStem.notMem {stem : String} (h : IsStem stem) :
    ':' ∉ stem.toList ∧ '(' ∉ stem.toList ∧ '\n' ∉ stem.toList :=
  ⟨fun hc => (h _ hc).1 rfl, fun hc => (h _ hc).2.1 rfl, fun hc => (h _ hc).2.2 rfl⟩

/-- A stem with a number is a stem. -/
theorem IsStem.numbered {stem : String} (h : IsStem stem) (index : Nat) :
    IsStem (numbered stem index) := by
  intro c hc
  rw [MatcherSource.numbered, String.toList_append, List.mem_append, String.toList_append,
    List.mem_append, Nat.toList_repr, ← Text.decimal_eq] at hc
  rcases hc with (hc | hc) | hc
  · exact h c hc
  · rw [List.mem_singleton.mp hc]
    decide
  · have hdigit := Text.isDigit_of_mem_decimal hc
    refine ⟨?_, ?_, ?_⟩ <;> (rintro rfl; exact absurd hdigit (by decide))

variable {stem : String}

/-- The matchers that are collected for a stem have no broken lines. -/
theorem unbroken_lines (hstem : IsStem stem) (patterns : List String) :
    Unbroken (collected stem patterns).lines := by
  have hheader : Unbroken header := by simp [header]
  refine unbroken_append.mpr ⟨hheader, unbroken_flatten.mpr fun matcher hmatcher => ?_⟩
  obtain ⟨⟨pattern, index⟩, -, rfl⟩ := List.mem_map.mp hmatcher
  refine unbroken_cons.mpr ⟨by simp, ?_⟩
  rw [matcherLines]
  split
  · exact unbroken_matcher (hstem.numbered index).notMem.2.2 _ _
  · exact unbroken_nil

/-- The items of a source file are those of its matchers. -/
theorem itemNames_source {g : Generator} (h : Unbroken g.lines) :
    itemNames g.source = g.matchers.flatMap namesIn := by
  have hlines : itemNames g.source = namesIn g.lines := by
    rw [itemNames, source, splitOn_join h, List.filterMap_append, List.filterMap_map]
    exact List.append_nil _
  have hheader : namesIn header = [] := by decide
  rw [hlines, lines, namesIn_append, hheader, List.nil_append, namesIn, List.filterMap_flatten,
    List.map_map, ← List.flatMap_def]
  rfl

/-- The matchers that are collected for a stem define two items for each number. -/
theorem itemNames_collected (hstem : IsStem stem) (patterns : List String) :
    itemNames (collected stem patterns).source =
      (List.range (accepted patterns).length).flatMap fun i =>
        [numbered (Text.upper stem) i, numbered stem i] := by
  have hnames : ∀ entry ∈ (accepted patterns).zipIdx, namesIn (matcherLines stem entry) =
      [numbered (Text.upper stem) entry.2, numbered stem entry.2] := by
    intro (pattern, index) hmem
    obtain ⟨-, hok⟩ := mem_accepted.mp (List.fst_mem_of_mem_zipIdx hmem)
    obtain ⟨hcolon, hparen, -⟩ := (hstem.numbered index).notMem
    rw [matcherLines, ← upper_numbered]
    cases hp : Program.ofText pattern with
    | error e => rw [hp] at hok; cases hok
    | ok p => exact namesIn_matcher hcolon hparen pattern p
  have hindices : (accepted patterns).zipIdx.map Prod.snd =
      List.range (accepted patterns).length := by
    rw [List.range_eq_range']
    exact List.zipIdx_map_snd ..
  rw [itemNames_source (unbroken_lines hstem patterns), collected, List.flatMap_map,
    List.flatMap_congr hnames, ← hindices, List.flatMap_map]

/-- A source file defines, for each matcher, a static named like its function in upper case, and
the function. If there is a matcher at all, all these names are different from each other if and
only if the stem is not its own upper case. -/
theorem itemNames_nodup_iff (hstem : IsStem stem) (patterns : List String) :
    itemNames (after stem patterns).source =
        (List.range (after stem patterns).size).flatMap (fun i =>
          [Text.upper ((after stem patterns).matcherName i), (after stem patterns).matcherName i]) ∧
      ((itemNames (after stem patterns).source).Nodup ↔
        accepted patterns = [] ∨ Text.upper stem ≠ stem) := by
  have hnames := itemNames_collected hstem patterns
  rw [after_eq, size_collected]
  constructor
  · rw [hnames]
    refine List.flatMap_congr fun i _ => ?_
    rw [← upper_numbered]
    rfl
  · rw [hnames, nodup_pairs_iff, List.length_eq_zero_iff]

/-- The matchers for a stem of small letters have items of different names. -/
theorem itemNames_nodup_smallLetters :
    IsStem "re" ∧ (itemNames (after "re" ["a", "b", "a"]).source).Nodup := by
  have hstem : IsStem "re" := by simp [IsStem]
  have hupper : Text.upper "re" ≠ "re" := by decide +kernel
  exact ⟨hstem, (itemNames_nodup_iff hstem _).2.mpr (Or.inr hupper)⟩

/-- The static and the function of a pattern have one name if the stem is a capital letter. -/
theorem not_nodup_capitalLetter : ¬(itemNames (after "A" ["a"]).source).Nodup := by
  have haccepted : accepted ["a"] = ["a"] := by decide +kernel
  have hstem : IsStem "A" := by simp [IsStem]
  have hupper : Text.upper "A" = "A" := Text.upper_of_lt (by simp)
  rw [after_eq, itemNames_collected hstem, nodup_pairs_iff, haccepted, hupper]
  simp

end Generator

end BacktrackRegex.MatcherSource
