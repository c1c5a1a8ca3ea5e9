import BacktrackRegex.Proofs.Regex.Precompiled

/-!
# Settings and reports

Settings choose what carries out a search: a program alone or with workers, or a matcher that was
made beforehand. All of them carry out the searches of the same program, and everything that is
reported of a text is read from its leftmost match. So the settings and the workers make no
difference to what is reported, and the reports of one match fit together.
-/

namespace BacktrackRegex

open Search Text

namespace Regex

/-- Two regular expressions report the same of themselves and of each text, whatever their workers
do. -/
structure Agrees (re re' : Regex) : Prop where
  groups : re.groups = re'.groups
  isAnchored : re.isAnchored = re'.isAnchored
  minLength : re.minLength = re'.minLength
  isMatch : ∀ workers workers' text, re.isMatch workers text = re'.isMatch workers' text
  find? : ∀ workers workers' text, re.find? workers text = re'.find? workers' text
  findSpan? : ∀ workers workers' text, re.findSpan? workers text = re'.findSpan? workers' text
  captures? : ∀ workers workers' text, re.captures? workers text = re'.captures? workers' text

/-- The reports of a regular expression on a text fit together, and each attempt comes to an end
without a fault, whatever storage it is given. -/
structure Coherent (re : Regex) : Prop where
  isMatch_iff_find? : ∀ workers workers' text,
    re.isMatch workers text = true ↔ (re.find? workers' text).isSome = true
  isMatch_iff_captures? : ∀ workers workers' text,
    re.isMatch workers text = true ↔ (re.captures? workers' text).isSome = true
  get?_zero : ∀ workers workers' text c, re.captures? workers text = some c →
    c.get? 0 = re.find? workers' text
  attempt : ∀ schedule priority text start storage, isBoundary text start = true →
    ∃ t, re.attempt schedule priority text start storage = .matched t ∨
      re.attempt schedule priority text start storage = .failed t

/-- A regular expression with a precompiled matcher carries out the searches of the program that the
matcher follows. -/
theorem runs_precompiled {source : String} {prog : Program} {m : Precompiled}
    (hm : m.Follows prog) (h : Program.ofText source = .ok prog) (settings : Settings) :
    Regex.Runs ⟨source, .precompiled m, settings⟩ prog where
  groups := hm.groups
  isAnchored := hm.anchored
  minLength := hm.minLength
  attempt _ priority _ _ storage hb := .of_shows (hm.exec_shows h storage hb) priority false

variable {settings settings' : Settings} {source : String} {re re' : Regex} {prog : Program}
  {text : String}

/-- A regular expression carries out the searches of the program of its pattern, whatever the
settings are. -/
theorem exists_runs (hre : Regex.compile settings source = .ok re) :
    ∃ prog, Program.ofText source = .ok prog ∧ re.Runs prog := by
  rw [compile] at hre
  split at hre
  · next m hm =>
    obtain rfl := Except.ok.inj hre
    have hlookup : Precompiled.lookup source = some m := by
      by_cases hs : settings.usePrecompiled = true
      · rwa [if_pos hs] at hm
      · simp [hs] at hm
    obtain ⟨prog, hp, hfollows⟩ := Precompiled.exists_follows_of_lookup hlookup
    exact ⟨prog, hp, runs_precompiled hfollows hp settings⟩
  · cases hp : Program.ofText source with
    | error e => simp [hp] at hre
    | ok prog =>
      rw [hp] at hre
      obtain rfl := Except.ok.inj hre
      exact ⟨prog, rfl, runs_program hp settings⟩

/-- A pattern with a program gives a regular expression, whatever the settings are. -/
theorem exists_compile (h : Program.ofText source = .ok prog) (settings : Settings) :
    ∃ re, Regex.compile settings source = .ok re := by
  rw [compile]
  split
  · exact ⟨_, rfl⟩
  · rw [h]
    exact ⟨_, rfl⟩

/-- Regular expressions that carry out the searches of the same program agree. -/
theorem Runs.agrees (hr : re.Runs prog) (hr' : re'.Runs prog)
    (h : Program.ofText source = .ok prog) : re.Agrees re' := by
  have same (text : String) (workers workers' : Workers) :
      re.isMatch workers text = re'.isMatch workers' text ∧
      re.find? workers text = re'.find? workers' text ∧
      re.captures? workers text = re'.captures? workers' text := by
    obtain ⟨first, hfirst, hreports⟩ := hr.exists_leftmost h text
    obtain ⟨first', hfirst', hreports'⟩ := hr'.exists_leftmost h text
    obtain ⟨hmatch, hfind, hcaptures⟩ := hreports workers
    obtain ⟨hmatch', hfind', hcaptures'⟩ := hreports' workers'
    obtain rfl := hfirst.unique hfirst'
    exact ⟨hmatch.trans hmatch'.symm, hfind.trans hfind'.symm, hcaptures.trans hcaptures'.symm⟩
  exact {
    groups := hr.groups.trans hr'.groups.symm
    isAnchored := hr.isAnchored.trans hr'.isAnchored.symm
    minLength := hr.minLength.trans hr'.minLength.symm
    isMatch := fun workers workers' text => (same text workers workers').1
    find? := fun workers workers' text => (same text workers workers').2.1
    findSpan? := fun workers workers' text =>
      congrArg (Option.map Match.span) (same text workers workers').2.1
    captures? := fun workers workers' text => (same text workers workers').2.2 }

/-- A regular expression that carries out the searches of a program is coherent. -/
theorem Runs.coherent (hr : re.Runs prog) (h : Program.ofText source = .ok prog) :
    re.Coherent where
  isMatch_iff_find? workers workers' text := by
    rcases hr.reports h text with ⟨-, hnone⟩ | ⟨start, stop, history, -, -, hsome⟩
    · rw [(hnone workers).1, (hnone workers').2.1, Option.isSome_none]
    · rw [(hsome workers).1, (hsome workers').2.1, Option.isSome_some]
  isMatch_iff_captures? workers workers' text := by
    rcases hr.reports h text with ⟨-, hnone⟩ | ⟨start, stop, history, -, -, hsome⟩
    · rw [(hnone workers).1, (hnone workers').2.2, Option.isSome_none]
    · rw [(hsome workers).1, (hsome workers').2.2, Option.isSome_some]
  get?_zero workers workers' text c hc := by
    rcases hr.reports h text with ⟨-, hnone⟩ | ⟨start, stop, history, -, hspan, hsome⟩
    · simp [(hnone workers).2.2] at hc
    · obtain rfl := Option.some.inj (hc.symm.trans (hsome workers).2.2)
      rw [(hsome workers').2.1]
      simp [Captures.get?, hspan]
  attempt schedule priority text start storage hb :=
    (hr.attempt schedule priority text start storage hb).ends

/-- A pattern gives a regular expression with all settings or with none, and all of these report the
same of each text: with workers or without them, and with a program or with a precompiled matcher.
Each of them matches if and only if it finds something and if and only if it captures something, and
the whole match is the first of the groups. -/
theorem compile_agrees (hre : Regex.compile settings source = .ok re) (settings' : Settings) :
    ∃ re', Regex.compile settings' source = .ok re' ∧ re.Agrees re' ∧ re.Coherent ∧
      re'.Coherent := by
  obtain ⟨prog, h, hr⟩ := exists_runs hre
  obtain ⟨re', hre'⟩ := exists_compile h settings'
  obtain ⟨prog', h', hr'⟩ := exists_runs hre'
  obtain rfl := Except.ok.inj (h.symm.trans h')
  exact ⟨re', hre', hr.agrees hr' h, hr.coherent h, hr'.coherent h⟩

/-- Workers that share every decision find the match that a precompiled matcher finds. -/
theorem compile_agrees_letters :
    ∃ re re', Regex.compile .standard "[a-c]+." = .ok re ∧ re.isPrecompiled = true ∧
      Regex.compile ⟨true, 0, false⟩ "[a-c]+." = .ok re' ∧ re'.isPrecompiled = false ∧
      ∀ workers, re'.isMatch workers "xab" = true ∧
        re'.find? workers "xab" = some ⟨"xab", ⟨1, 3⟩⟩ := by
  let m : Precompiled := ⟨"[a-c]+.", false, 2, 0, 4, 5, Precompiled.lettersAndOne⟩
  let re : Regex := ⟨"[a-c]+.", .precompiled m, .standard⟩
  have hre : Regex.compile .standard "[a-c]+." = .ok re := rfl
  have hfind : re.find? (fun _ => .alone) "xab" = some ⟨"xab", ⟨1, 3⟩⟩ := by decide +kernel
  obtain ⟨re', hre', hagrees, -, hcoherent⟩ := compile_agrees hre ⟨true, 0, false⟩
  have hprogram : re'.isPrecompiled = false := by
    rw [compile] at hre'
    cases hp : Program.ofText "[a-c]+." with
    | error e => simp [hp] at hre'
    | ok prog =>
      rw [hp] at hre'
      obtain rfl := Except.ok.inj hre'
      rfl
  have hfind' (workers : Workers) : re'.find? workers "xab" = some ⟨"xab", ⟨1, 3⟩⟩ :=
    (hagrees.find? _ workers "xab").symm.trans hfind
  refine ⟨re, re', hre, rfl, hre', hprogram, fun workers => ⟨?_, hfind' workers⟩⟩
  rw [hcoherent.isMatch_iff_find? workers workers, hfind' workers, Option.isSome_some]

end Regex

end BacktrackRegex
