import BacktrackRegex.Proofs.Matching.Anchored
import BacktrackRegex.Proofs.Matching.Searches
import BacktrackRegex.Regex

/-!
# Leftmost matches

A regular expression tries the places of a text from left to right, but leaves out those where no
match can begin: all places but the start if it is anchored, and those with fewer bytes to come than
a match takes. What it reports is the match that begins leftmost, and the one that the search of the
program finds there.
-/

namespace BacktrackRegex

open Search Text

/-- The latest span of a capture group in a history, if it has one. -/
def History.span? (h : History) (group : Nat) : Option Span :=
  (latestSpan group (h.places (.group group))).toOption.join

/-- The spans of a trail are those of its records. -/
theorem Trail.span?_eq (t : Trail) (group : Nat) : t.span? group = t.history.span? group := by
  rw [span?, captured_eq, History.span?]

/-- The span of a group that was captured is that of the records. -/
theorem Trail.span?_of_captured {t : Trail} {group : Nat} {span : Span}
    (h : t.captured group = .ok (some span)) : t.history.span? group = some span := by
  rw [← span?_eq, span?, h]
  rfl

/-- The records of the match that a search from a place finds, if it finds one. -/
def Program.finds? (prog : Program) (text : String) (start : Nat) : Option History :=
  (prog.exec text start (.startingAt #[] start)).trail?.map Trail.history

/-- The leftmost match of a program in a text: the first place from which a search finds a match,
and its records. -/
def Program.Leftmost (prog : Program) (text : String) : Option (Nat × History) → Prop
  | none => ∀ i, isBoundary text i = true → prog.finds? text i = none
  | some (start, h) => isBoundary text start = true ∧ prog.finds? text start = some h ∧
      ∀ i, i < start → isBoundary text i = true → prog.finds? text i = none

/-- There is one leftmost match at most. -/
theorem Program.Leftmost.unique {prog : Program} {text : String}
    {first first' : Option (Nat × History)} (h : prog.Leftmost text first)
    (h' : prog.Leftmost text first') : first = first' := by
  have hnone {start : Nat} {history : History} (hs : prog.Leftmost text (some (start, history)))
      (hn : prog.Leftmost text none) : False := by
    have := hn start hs.1
    rw [hs.2.1] at this
    simp at this
  match first, first' with
  | none, none => rfl
  | none, some (start, history) => exact (hnone h' h).elim
  | some (start, history), none => exact (hnone h h').elim
  | some (start, history), some (start', history') =>
    obtain ⟨hb, hf, hbefore⟩ := h
    obtain ⟨hb', hf', hbefore'⟩ := h'
    rcases Nat.lt_trichotomy start start' with hlt | rfl | hlt
    · rw [hbefore' start hlt hb] at hf
      simp at hf
    · rw [Option.some.inj (hf.symm.trans hf')]
    · rw [hbefore start' hlt hb'] at hf'
      simp at hf'

/-- The program of a text that was read is compiled from the simplified pattern. -/
theorem Program.exists_of_ofText {source : String} {prog : Program}
    (h : Program.ofText source = .ok prog) :
    ∃ p, Pattern.read Pattern.maxGroups source = .ok p ∧
      p.simplify.compile? Pattern.maxNodes = some prog := by
  rw [ofText] at h
  split at h
  · simp at h
  · next p hread =>
    split at h
    · next hc =>
      obtain rfl := Except.ok.inj h
      exact ⟨p, hread, hc⟩
    · simp at h

/-- Whether a text is compiled to a program can be told without a proof about its error. -/
theorem Program.ofText_eq_ok_iff {source : String} {prog : Program} :
    Program.ofText source = .ok prog ↔ (Program.ofText source).toOption = some prog := by
  cases Program.ofText source <;> simp [Except.toOption]

namespace Program

variable {source : String} {prog : Program} {text : String} {start : Nat}

/-- All searches from a place come to the same match, or to none, whatever storage they write to.
There is none where fewer bytes are left than a match takes. -/
theorem finds?_spec (h : Program.ofText source = .ok prog) (hb : isBoundary text start = true) :
    (∀ storage, (prog.exec text start (.startingAt storage start)).Shows
        (.of? (prog.finds? text start)) ∧
      ∀ terms, (prog.execShared terms text start (.startingAt storage start)).Stands
        terms.priority false (prog.finds? text start)) ∧
      (text.utf8ByteSize - start < prog.minLength → prog.finds? text start = none) := by
  obtain ⟨p, hread, hc⟩ := exists_of_ofText h
  obtain ⟨found, hsearches, hshort⟩ :=
    exists_found hread (Or.inr rfl) hc text (le_of_isBoundary hb)
  have hfound : prog.finds? text start = found := by
    rw [finds?]
    rcases (hsearches #[]).1.cases_of? with ⟨t, ht, rfl⟩ | ⟨t, ht, rfl⟩ <;> rw [ht] <;> rfl
  rw [hfound]
  exact ⟨fun storage => ⟨(hsearches storage).1, (hsearches storage).2.2⟩, hshort⟩

/-- Nothing is found where the search fails, and only there. -/
theorem finds?_eq_none_iff (h : Program.ofText source = .ok prog)
    (hb : isBoundary text start = true) : prog.finds? text start = none ↔
      ∃ t, prog.exec text start (.startingAt #[] start) = .failed t := by
  constructor
  · intro hnone
    rcases ((finds?_spec h hb).1 #[]).1.cases_of? with ⟨t, ht, -⟩ | ⟨t, -, hf⟩
    · exact ⟨t, ht⟩
    · simp [hnone] at hf
  · rintro ⟨t, ht⟩
    rw [finds?, ht]
    rfl

/-- The records that are found are those of the search that succeeds. -/
theorem finds?_eq_some_iff (h : Program.ofText source = .ok prog)
    (hb : isBoundary text start = true) {history : History} :
    prog.finds? text start = some history ↔
      ∃ t, prog.exec text start (.startingAt #[] start) = .matched t ∧ t.history = history := by
  constructor
  · intro hsome
    rcases ((finds?_spec h hb).1 #[]).1.cases_of? with ⟨t, -, hf⟩ | ⟨t, ht, hf⟩
    · simp [hsome] at hf
    · exact ⟨t, ht, Option.some.inj (hf.symm.trans hsome)⟩
  · rintro ⟨t, ht, rfl⟩
    rw [finds?, ht]
    rfl

/-- An anchored program finds nothing behind the start of the text. -/
theorem finds?_of_anchored (h : Program.ofText source = .ok prog) (ha : prog.anchored = true)
    (hb : isBoundary text start = true) (hs : start ≠ 0) : prog.finds? text start = none := by
  obtain ⟨p, hread, hc⟩ := exists_of_ofText h
  exact (finds?_eq_none_iff h hb).mpr (exec_of_anchored hread (Or.inr rfl) hc ha text hb hs #[])

/-- A match spans a piece of the text from the place on where its search began. -/
theorem exists_captured_of_matched (h : Program.ofText source = .ok prog)
    (hb : isBoundary text start = true) {t : Trail}
    (ht : prog.exec text start (.startingAt #[] start) = .matched t) :
    ∃ stop, t.captured 0 = .ok (some ⟨start, stop⟩) := by
  obtain ⟨p, hread, hc⟩ := exists_of_ofText h
  obtain ⟨spans, stop, hspans, hwhole⟩ := exists_spans_of_matched hread (Or.inr rfl) hc hb ht
  exact ⟨stop, (hspans 0).trans (congrArg Except.ok hwhole)⟩

/-- There is no leftmost match if and only if all searches fail. -/
theorem leftmost_none_iff (h : Program.ofText source = .ok prog) :
    prog.Leftmost text none ↔ ∀ i, isBoundary text i = true →
      ∃ t, prog.exec text i (.startingAt #[] i) = .failed t :=
  forall₂_congr fun _ hb => finds?_eq_none_iff h hb

/-- The leftmost match begins at the first place from which a search succeeds, and has the records
of this search. -/
theorem leftmost_some_iff (h : Program.ofText source = .ok prog) {history : History} :
    prog.Leftmost text (some (start, history)) ↔ isBoundary text start = true ∧
      (∃ t, prog.exec text start (.startingAt #[] start) = .matched t ∧ t.history = history) ∧
      ∀ i, i < start → isBoundary text i = true →
        ∃ t, prog.exec text i (.startingAt #[] i) = .failed t := by
  refine and_congr_right fun hb => and_congr ?_ ?_
  · exact finds?_eq_some_iff h hb
  · exact forall₂_congr fun _ _ => forall_congr' fun hb' => finds?_eq_none_iff h hb'

end Program

/-- A regular expression carries out the searches of a program: it knows the same of it, and the
attempts at each place, over any storage, stand for what a search of the program finds there. -/
structure Regex.Runs (re : Regex) (prog : Program) : Prop where
  groups : re.groups = prog.groups
  isAnchored : re.isAnchored = prog.anchored
  minLength : re.minLength = prog.minLength
  attempt : ∀ schedule priority text start storage, isBoundary text start = true →
    (re.attempt schedule priority text start storage).Stands priority false
      (prog.finds? text start)

/-- A regular expression with a program carries out its searches, whatever the settings are. -/
theorem Regex.runs_program {source : String} {prog : Program}
    (h : Program.ofText source = .ok prog) (settings : Settings) :
    Regex.Runs ⟨source, .program prog, settings⟩ prog where
  groups := rfl
  isAnchored := rfl
  minLength := rfl
  attempt schedule priority text start storage hb := by
    obtain ⟨hshows, hshared⟩ := (Program.finds?_spec h hb).1 storage
    rw [attempt]
    dsimp only
    split
    · exact hshared ⟨priority, settings.threshold, schedule⟩
    · exact .of_shows hshows priority false

namespace Regex.Runs

variable {re : Regex} {prog : Program} {text : String} {priority : Priority}

/-- An attempt finds nothing and fails, or finds a match and matches. If matches are preferred in
their order, it has the records of the match that is found. -/
theorem cases_attempt (hr : re.Runs prog) (schedule : Schedule) {start : Nat}
    (storage : Array Entry) (hb : isBoundary text start = true) :
    (prog.finds? text start = none ∧
      ∃ t, re.attempt schedule priority text start storage = .failed t) ∨
    ∃ history t, prog.finds? text start = some history ∧
      re.attempt schedule priority text start storage = .matched t ∧
      (priority = .sequential → t.history = history) := by
  have hs := hr.attempt schedule priority text start storage hb
  obtain ⟨t, ht | ht⟩ := hs.ends
  · rw [ht] at hs
    cases hf : prog.finds? text start with
    | none => exact (hf ▸ hs).elim
    | some history =>
      rw [hf] at hs
      exact Or.inr ⟨history, t, rfl, ht, fun hp => hs hp rfl⟩
  · rw [ht] at hs
    cases hf : prog.finds? text start with
    | none => exact Or.inl ⟨rfl, t, ht⟩
    | some history =>
      rw [hf] at hs
      exact absurd hs Bool.false_ne_true

/-- The match that is reported stands for the leftmost match. -/
inductive Reports (priority : Priority) : Option Trail → Option (Nat × History) → Prop where
  | none : Reports priority none none
  | some {t start history} (h : priority = .sequential → t.history = history) :
      Reports priority (some t) (some (start, history))

/-- Something is reported if and only if there is a match. -/
theorem Reports.isSome {found : Option Trail} {first : Option (Nat × History)}
    (h : Reports priority found first) : found.isSome = first.isSome := by
  cases h <;> rfl

/-- The records of the leftmost match are reported if matches are preferred in their order. -/
theorem Reports.history {found : Option Trail} {first : Option (Nat × History)}
    (h : Reports .sequential found first) : found.map Trail.history = first.map Prod.snd := by
  cases h with
  | none => rfl
  | some h => exact congrArg Option.some (h rfl)

/-- Trying some places one after the other comes to the leftmost match, if nothing is found at the
places before them and behind them. What earlier attempts have left in the storage makes no
difference. -/
theorem searchFrom (hr : re.Runs prog) (workers : Workers) (priority : Priority) (count : Nat)
    {start : Nat} (storage : Array Entry)
    (hbefore : ∀ i, i < start → isBoundary text i = true → prog.finds? text i = none)
    (hbehind : ∀ i, start + count ≤ i → isBoundary text i = true → prog.finds? text i = none) :
    ∃ first, prog.Leftmost text first ∧
      Reports priority (re.searchFrom workers priority text count start storage) first := by
  induction count generalizing start storage with
  | zero =>
    refine ⟨none, fun i hb => ?_, .none⟩
    by_cases hi : i < start
    · exact hbefore i hi hb
    · exact hbehind i (by omega) hb
  | succ count ih =>
    have behind (storage : Array Entry)
        (hnone : isBoundary text start = true → prog.finds? text start = none) :
        ∃ first, prog.Leftmost text first ∧
          Reports priority (re.searchFrom workers priority text count (start + 1) storage)
            first := by
      refine ih storage (fun i hi hb => ?_) fun i hi hb => hbehind i (by omega) hb
      rcases Nat.lt_succ_iff_lt_or_eq.mp hi with hlt | rfl
      · exact hbefore i hlt hb
      · exact hnone hb
    rw [Regex.searchFrom]
    by_cases hb : isBoundary text start = true
    · rw [if_pos hb]
      rcases @cases_attempt _ _ _ priority hr (workers start) start storage hb with
        ⟨hf, t, ht⟩ | ⟨history, t, hf, ht, hsame⟩
      · rw [ht]
        exact behind t.storage fun _ => hf
      · rw [ht]
        exact ⟨some (start, history), ⟨hb, hf, hbefore⟩, .some hsame⟩
    · rw [if_neg hb]
      exact behind storage fun hb' => absurd hb' hb

/-- A search of a text comes to the leftmost match: nothing is lost at the places that it leaves
out. -/
theorem search (hr : re.Runs prog) {source : String} (h : Program.ofText source = .ok prog)
    (workers : Workers) (priority : Priority) (text : String) :
    ∃ first, prog.Leftmost text first ∧
      Reports priority (re.search workers priority text) first := by
  have hshort {i : Nat} (hb : isBoundary text i = true)
      (hi : text.utf8ByteSize - i < prog.minLength) : prog.finds? text i = none :=
    (Program.finds?_spec h hb).2 hi
  rw [Regex.search, hr.minLength, hr.isAnchored]
  split
  · exact ⟨none, fun i hb => hshort hb (by omega), .none⟩
  · refine hr.searchFrom workers priority _ #[] (fun i hi => by omega) fun i hi hb => ?_
    rw [Nat.zero_add] at hi
    split at hi
    · next ha => exact Program.finds?_of_anchored h ha hb (by omega)
    · have := le_of_isBoundary hb
      exact hshort hb (by omega)

end Regex.Runs

namespace Regex

variable {re : Regex} {prog : Program} {source : String}

/-- The match that is reported is read from the records of a search. -/
theorem find?_eq (re : Regex) (workers : Workers) (text : String) :
    re.find? workers text = ((re.search workers .sequential text).map Trail.history).bind
      fun h => (h.span? 0).map (Match.mk text) := by
  rw [find?]
  cases re.search workers .sequential text with
  | none => rfl
  | some t =>
    change (t.span? 0).bind _ = _
    rw [Trail.span?_eq]
    cases hs : t.history.span? 0 <;> simp [hs]

/-- The groups that are reported are read from the records of a search. -/
theorem captures?_eq (re : Regex) (workers : Workers) (text : String) :
    re.captures? workers text = ((re.search workers .sequential text).map Trail.history).map
      fun h => ⟨text, (List.range (re.groups + 1)).map h.span?⟩ := by
  rw [captures?]
  cases re.search workers .sequential text with
  | none => rfl
  | some t =>
    have hspans : (List.range (re.groups + 1)).map t.span? =
        (List.range (re.groups + 1)).map t.history.span? :=
      List.map_congr_left fun i _ => t.span?_eq i
    exact congrArg (fun spans => some (Captures.mk text spans)) hspans

/-- All that is reported of a text is read from the leftmost match, whatever the workers do. -/
theorem Runs.exists_leftmost (hr : re.Runs prog) (h : Program.ofText source = .ok prog)
    (text : String) : ∃ first, prog.Leftmost text first ∧ ∀ workers,
      re.isMatch workers text = first.isSome ∧
      re.find? workers text =
        (first.map Prod.snd).bind (fun h => (h.span? 0).map (Match.mk text)) ∧
      re.captures? workers text =
        (first.map Prod.snd).map fun h => ⟨text, (List.range (prog.groups + 1)).map h.span?⟩ := by
  obtain ⟨first, hfirst, -⟩ := hr.search h (fun _ => .alone) .any text
  refine ⟨first, hfirst, fun workers => ?_⟩
  have reports (priority : Priority) :
      Runs.Reports priority (re.search workers priority text) first := by
    obtain ⟨first', hfirst', hreports⟩ := hr.search h workers priority text
    exact hfirst.unique hfirst' ▸ hreports
  have hhistory := (reports .sequential).history
  exact ⟨(reports .any).isSome, by rw [find?_eq, hhistory],
    by rw [captures?_eq, hhistory, hr.groups]⟩

/-- What is reported of a text: nothing at all if there is no leftmost match, and otherwise the span
of the leftmost match and of its groups. -/
theorem Runs.reports (hr : re.Runs prog) (h : Program.ofText source = .ok prog) (text : String) :
    (prog.Leftmost text none ∧ ∀ workers, re.isMatch workers text = false ∧
      re.find? workers text = none ∧ re.captures? workers text = none) ∨
    ∃ start stop history, prog.Leftmost text (some (start, history)) ∧
      history.span? 0 = some ⟨start, stop⟩ ∧ ∀ workers, re.isMatch workers text = true ∧
        re.find? workers text = some ⟨text, ⟨start, stop⟩⟩ ∧
        re.captures? workers text =
          some ⟨text, (List.range (prog.groups + 1)).map history.span?⟩ := by
  obtain ⟨first, hfirst, hreports⟩ := hr.exists_leftmost h text
  cases first with
  | none => exact Or.inl ⟨hfirst, hreports⟩
  | some first =>
    obtain ⟨start, history⟩ := first
    obtain ⟨hb, ⟨t, ht, rfl⟩, -⟩ := (Program.leftmost_some_iff h).mp hfirst
    obtain ⟨stop, hcaptured⟩ := Program.exists_captured_of_matched h hb ht
    have hspan := Trail.span?_of_captured hcaptured
    refine Or.inr ⟨start, stop, t.history, hfirst, hspan, fun workers => ?_⟩
    obtain ⟨hmatch, hfind, hcaptures⟩ := hreports workers
    refine ⟨hmatch, ?_, hcaptures⟩
    rw [hfind]
    exact congrArg (Option.map (Match.mk text)) hspan

end Regex

/-- A regular expression with a program was compiled to it, and carries out its searches. -/
theorem Regex.runs_of_compile {settings : Settings} {source : String} {re : Regex}
    {prog : Program} (hre : Regex.compile settings source = .ok re)
    (hm : re.matcher = .program prog) : Program.ofText source = .ok prog ∧ re.Runs prog := by
  rw [compile] at hre
  split at hre
  · obtain rfl := Except.ok.inj hre
    simp at hm
  · cases hp : Program.ofText source with
    | error e => simp [hp] at hre
    | ok prog' =>
      rw [hp] at hre
      obtain rfl := Except.ok.inj hre
      obtain rfl := Matcher.program.inj hm
      exact ⟨rfl, runs_program hp settings⟩

/-- A regular expression with a program reports the leftmost match: it begins at the first place
between characters from which a search succeeds, and is the one that this search finds. Nothing is
reported if and only if all searches fail. No match is lost because an anchored pattern is tried at
the start only, or because places with too few bytes to come are left out, and workers make no
difference. -/
theorem Regex.find?_iff_leftmost {settings : Settings} {source : String} {re : Regex}
    {prog : Program} (hre : Regex.compile settings source = .ok re)
    (hm : re.matcher = .program prog) (workers : Workers) (text : String) :
    (∀ start stop, re.find? workers text = some ⟨text, ⟨start, stop⟩⟩ ↔
      isBoundary text start = true ∧
      (∃ t, prog.exec text start (.startingAt #[] start) = .matched t ∧
        t.captured 0 = .ok (some ⟨start, stop⟩)) ∧
      ∀ i, i < start → isBoundary text i = true →
        ∃ t, prog.exec text i (.startingAt #[] i) = .failed t) ∧
    (re.find? workers text = none ↔ ∀ i, isBoundary text i = true →
      ∃ t, prog.exec text i (.startingAt #[] i) = .failed t) ∧
    ∀ m, re.find? workers text = some m → m.text = text := by
  obtain ⟨h, hr⟩ := runs_of_compile hre hm
  rcases hr.reports h text with ⟨hnone, hreports⟩ | ⟨start, stop, history, hsome, hspan, hreports⟩
  · have hfind := (hreports workers).2.1
    have hfail := (Program.leftmost_none_iff h).mp hnone
    refine ⟨fun start stop => ⟨fun hs => ?_, fun ⟨hb, ⟨t, ht, _⟩, _⟩ => ?_⟩,
      ⟨fun _ => hfail, fun _ => hfind⟩, fun m hs => ?_⟩
    · simp [hfind] at hs
    · obtain ⟨t', ht'⟩ := hfail start hb
      simp [ht] at ht'
    · simp [hfind] at hs
  · have hfind := (hreports workers).2.1
    obtain ⟨hb, ⟨t, ht, rfl⟩, hbefore⟩ := (Program.leftmost_some_iff h).mp hsome
    refine ⟨fun start' stop' => ⟨fun hs => ?_, fun ⟨hb', ⟨t', ht', hcaptured'⟩, hbefore'⟩ => ?_⟩,
      ⟨fun hs => ?_, fun hfail => ?_⟩, fun m hs => ?_⟩
    · obtain ⟨-, hs⟩ := Match.mk.inj (Option.some.inj (hfind.symm.trans hs))
      obtain ⟨rfl, rfl⟩ := Span.mk.inj hs
      obtain ⟨stop', hcaptured⟩ := Program.exists_captured_of_matched h hb ht
      rw [Trail.span?_of_captured hcaptured] at hspan
      exact ⟨hb, ⟨t, ht, by rw [hcaptured, hspan]⟩, hbefore⟩
    · have hsome' := (Program.leftmost_some_iff h).mpr ⟨hb', ⟨t', ht', rfl⟩, hbefore'⟩
      obtain ⟨rfl, hsame⟩ := Prod.mk.inj (Option.some.inj (hsome.unique hsome'))
      rw [hsame, Trail.span?_of_captured hcaptured'] at hspan
      rw [hfind, Option.some.inj hspan]
    · simp [hfind] at hs
    · obtain ⟨t', ht'⟩ := hfail start hb
      simp [ht] at ht'
    · obtain rfl := Option.some.inj (hfind.symm.trans hs)
      rfl

/-- The second option matches behind a character, whatever the workers do. -/
theorem Regex.find?_iff_leftmost_second_option :
    ∃ re prog, Regex.compile ⟨true, 0, false⟩ "b|cc" = .ok re ∧ re.matcher = .program prog ∧
      ∀ workers, re.find? workers "acc" = some ⟨"acc", ⟨1, 3⟩⟩ := by
  let prog : Program :=
    ⟨#[⟨.success, 0⟩, ⟨.literal "b" 0, 1⟩, ⟨.literal "cc" 0, 2⟩, ⟨.branch 1 2, 1⟩], 3, 0, false⟩
  have hprog : Program.ofText "b|cc" = .ok prog :=
    Program.ofText_eq_ok_iff.mpr (by decide +kernel)
  have hre : Regex.compile ⟨true, 0, false⟩ "b|cc" =
      .ok ⟨"b|cc", .program prog, ⟨true, 0, false⟩⟩ := by
    rw [compile, hprog]
    rfl
  refine ⟨_, prog, hre, rfl, fun workers => ?_⟩
  have hexec : (prog.exec "acc" 1 (.startingAt #[] 1)).trail?.map (fun t => t.captured 0) =
      some (.ok (some ⟨1, 3⟩)) := by decide +kernel
  have hfail : prog.exec "acc" 0 (.startingAt #[] 0) = .failed (.startingAt #[] 0) := by
    decide +kernel
  refine ((find?_iff_leftmost hre rfl workers "acc").1 1 3).mpr ⟨by decide, ?_, fun i hi _ => ?_⟩
  · cases ht : prog.exec "acc" 1 (.startingAt #[] 1) with
    | matched t => exact ⟨t, rfl, by simpa [ht, Outcome.trail?] using hexec⟩
    | _ => simp [ht, Outcome.trail?] at hexec
  · obtain rfl : i = 0 := by omega
    exact ⟨_, hfail⟩

end BacktrackRegex
