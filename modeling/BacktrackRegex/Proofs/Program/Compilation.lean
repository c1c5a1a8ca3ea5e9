import BacktrackRegex.Proofs.Program.Layout

/-!
# Compiled patterns are laid out

Compiling a part for a node leaves the nodes that there are as they are and lays out the part behind
them. The keys of its loops are new, and each belongs to a single occurrence. A program that a
pattern is compiled to is therefore one layout of the pattern behind the node of success.
-/

namespace BacktrackRegex

namespace LoopKinds

/-- There are no loops. -/
def none : LoopKinds := fun _ => Option.none

/-- The loops of two parts. -/
def union (kinds kinds' : LoopKinds) : LoopKinds :=
  fun o => (kinds o).or (kinds' o)

/-- A loop, and those of its body. -/
def insert (o : Occurrence) (kind : LoopKind) (kinds : LoopKinds) : LoopKinds :=
  fun o' => if o' = o then some kind else kinds o'

/-- Each key belongs to a single occurrence. -/
def Unique (kinds : LoopKinds) : Prop :=
  ∀ o₁ o₂ i, kinds o₁ = some (.guarded i) → kinds o₂ = some (.guarded i) → o₁ = o₂

/-- The loops lie below an occurrence, and their keys are new ones up to `b`. -/
structure Within (kinds : LoopKinds) (o : Occurrence) (a b : Nat) : Prop where
  le : a ≤ b
  below : ∀ o' kind, kinds o' = some kind → o <:+ o'
  index : ∀ o' i, kinds o' = some (.guarded i) → a < i ∧ i ≤ b
  unique : kinds.Unique

/-- Different turns lead to different occurrences. -/
theorem turn_eq_of_suffix {a b : Turn} {o o' : Occurrence} (ha : a :: o <:+ o')
    (hb : b :: o <:+ o') : a = b := by
  have he := (List.suffix_of_suffix_length_le ha hb (by simp)).eq_of_length (by simp)
  exact (List.cons.inj he).1

namespace Within

variable {kinds kinds' : LoopKinds} {o : Occurrence} {a b c : Nat}

theorem none (o : Occurrence) (a : Nat) : LoopKinds.none.Within o a a where
  le := Nat.le_refl a
  below := by simp [LoopKinds.none]
  index := by simp [LoopKinds.none]
  unique := by simp [LoopKinds.Unique, LoopKinds.none]

/-- What lies below an occurrence lies below those that lead to it. -/
theorem of_suffix {o' : Occurrence} (h : kinds.Within o' a b) (hs : o <:+ o') :
    kinds.Within o a b :=
  ⟨h.le, fun o'' kind hk => hs.trans (h.below o'' kind hk), h.index, h.unique⟩

/-- What lies below a turn lies below the occurrence. -/
theorem of_turn {t : Turn} (h : kinds.Within (t :: o) a b) : kinds.Within o a b :=
  h.of_suffix (List.suffix_cons t o)

/-- The loops below the first turn are still known among those below both. -/
theorem left (kinds kinds' : LoopKinds) (o : Occurrence) (kind : LoopKind)
    (h : kinds o = some kind) : kinds.union kinds' o = some kind := by
  rw [union, h, Option.some_or]

/-- The loops below the second turn are still known among those below both. -/
theorem right {t t' : Turn} (hne : t ≠ t') (h : kinds.Within (t :: o) a b)
    (h' : kinds'.Within (t' :: o) b c) (o' : Occurrence) (kind : LoopKind)
    (hk : kinds' o' = some kind) : kinds.union kinds' o' = some kind := by
  cases hl : kinds o' with
  | none => rw [union, hl, hk, Option.none_or]
  | some kind' =>
    exact absurd (turn_eq_of_suffix (h.below o' kind' hl) (h'.below o' kind hk)) hne

/-- The loops below two turns, whose keys were given out one after the other. -/
theorem union {t t' : Turn} (h : kinds.Within (t :: o) a b) (h' : kinds'.Within (t' :: o) b c) :
    (kinds.union kinds').Within o a c := by
  have hle := h.le
  have hle' := h'.le
  refine ⟨Nat.le_trans hle hle', fun o' kind hk => ?_, fun o' i hk => ?_, fun o₁ o₂ i h₁ h₂ => ?_⟩
  · rcases Option.or_eq_some_iff.mp hk with hk | ⟨-, hk⟩
    · exact h.of_turn.below o' kind hk
    · exact h'.of_turn.below o' kind hk
  · rcases Option.or_eq_some_iff.mp hk with hk | ⟨-, hk⟩
    · have := h.index o' i hk
      omega
    · have := h'.index o' i hk
      omega
  · rcases Option.or_eq_some_iff.mp h₁ with h₁ | ⟨-, h₁⟩ <;>
      rcases Option.or_eq_some_iff.mp h₂ with h₂ | ⟨-, h₂⟩
    · exact h.unique o₁ o₂ i h₁ h₂
    · have := h.index o₁ i h₁
      have := h'.index o₂ i h₂
      omega
    · have := h'.index o₁ i h₁
      have := h.index o₂ i h₂
      omega
    · exact h'.unique o₁ o₂ i h₁ h₂

/-- The loops of a body are still known together with the loop itself. -/
theorem inserted {t : Turn} (h : kinds.Within (t :: o) a b) (kind : LoopKind) (o' : Occurrence)
    (kind' : LoopKind) (hk : kinds o' = some kind') :
    kinds.insert o kind o' = some kind' := by
  rw [insert, if_neg, hk]
  rintro rfl
  have := (h.below o' kind' hk).length_le
  rw [List.length_cons] at this
  omega

/-- A loop and those of its body; its own key, if it has one, was given out first. -/
theorem insert {t : Turn} {kind : LoopKind} (h : kinds.Within (t :: o) b c) (hab : a ≤ b)
    (hkind : ∀ i, kind = .guarded i → a < i ∧ i ≤ b) :
    (kinds.insert o kind).Within o a c := by
  have hle := h.le
  refine ⟨Nat.le_trans hab hle, fun o' kind' hk => ?_, fun o' i hk => ?_, fun o₁ o₂ i h₁ h₂ => ?_⟩
  · rw [LoopKinds.insert] at hk
    split at hk
    · next he => exact he ▸ List.suffix_rfl
    · exact h.of_turn.below o' kind' hk
  · rw [LoopKinds.insert] at hk
    split at hk
    · have := hkind i (Option.some.inj hk)
      omega
    · have := h.index o' i hk
      omega
  · rw [LoopKinds.insert] at h₁ h₂
    split at h₁ <;> split at h₂
    · next he he' => rw [he, he']
    · have := hkind i (Option.some.inj h₁)
      have := h.index o₂ i h₂
      omega
    · have := hkind i (Option.some.inj h₂)
      have := h.index o₁ i h₁
      omega
    · exact h.unique o₁ o₂ i h₁ h₂

end Within

end LoopKinds

namespace Draft

/-- A draft has more nodes than another one, behind the same ones. -/
structure Extends (d d' : Draft) : Prop where
  le : d.nodes.size ≤ d'.nodes.size
  same : ∀ i, i < d.nodes.size → d'.nodes[i]? = d.nodes[i]?

namespace Extends

variable {d d' d'' : Draft}

theorem refl (d : Draft) : d.Extends d :=
  ⟨Nat.le_refl _, fun _ _ => rfl⟩

theorem trans (h : d.Extends d') (h' : d'.Extends d'') : d.Extends d'' :=
  ⟨Nat.le_trans h.le h'.le,
    fun i hi => (h'.same i (Nat.lt_of_lt_of_le hi h.le)).trans (h.same i hi)⟩

/-- The least lengths from old nodes on stay the same. -/
theorem least (h : d.Extends d') {i : Nat} (hi : i < d.nodes.size) :
    leastFrom d'.nodes i = leastFrom d.nodes i := by
  rw [leastFrom, leastFrom, h.same i hi]

/-- A layout behind the nodes of an earlier draft is one of a later draft. -/
theorem transport {kinds kinds' : LoopKinds} {part : Part} {o : Occurrence} {next start lo : Nat}
    (h : d.Extends d') (hl : Laid d.nodes kinds part o next start lo d.nodes.size)
    (hnext : next < lo) (hk : ∀ o kind, kinds o = some kind → kinds' o = some kind) :
    Laid d'.nodes kinds' part o next start lo d.nodes.size :=
  hl.transport hnext (fun i _ hi => h.same i hi) (fun _ hi => h.least hi) hk

end Extends

/-- A new node stands behind the others. -/
theorem emit_eq {limit : Nat} {op : Op} {least id : Nat} {d d' : Draft}
    (h : d.emit limit op least = some (id, d')) :
    id = d.nodes.size ∧ d' = { d with nodes := d.nodes.push ⟨op, least⟩ } := by
  rw [emit] at h
  split at h
  · obtain ⟨rfl, rfl⟩ := Prod.mk.inj (Option.some.inj h)
    exact ⟨rfl, rfl⟩
  · simp at h

/-- A decision between two nodes stands behind the others. -/
theorem emitBranch_eq {limit first second id : Nat} {d d' : Draft}
    (h : d.emitBranch limit first second = some (id, d')) :
    id = d.nodes.size ∧ d' = { d with nodes := d.nodes.push ⟨.branch first second,
      min (leastFrom d.nodes first) (leastFrom d.nodes second)⟩ } :=
  emit_eq h

/-- The deciding node of a loop stands behind the others, with the exit in the place of the body. A
guarded loop gets a new key. -/
theorem emitLoop_eq {limit exit id : Nat} {guarded : Bool} {d d' : Draft}
    (h : d.emitLoop limit guarded exit = some (id, d')) :
    ∃ kind : LoopKind, kind.isGuarded = guarded ∧ id = d.nodes.size ∧
      d'.nodes = d.nodes.push ⟨kind.op exit exit, leastFrom d.nodes exit⟩ ∧ d.loops ≤ d'.loops ∧
      ∀ i, kind = .guarded i → d.loops < i ∧ i ≤ d'.loops := by
  rw [emitLoop] at h
  split at h
  · next hg =>
    obtain ⟨rfl, rfl⟩ := emit_eq h
    refine ⟨.guarded (d.loops + 1), hg.symm, rfl, rfl, Nat.le_succ _, fun i hi => ?_⟩
    obtain rfl := LoopKind.guarded.inj hi
    exact ⟨Nat.lt_succ_self _, Nat.le_refl _⟩
  · next hg =>
    obtain ⟨rfl, rfl⟩ := emit_eq h
    exact ⟨.plain, (Bool.eq_false_iff.mpr hg).symm, rfl, rfl, Nat.le_refl _, by simp⟩

/-- Putting in the body changes the deciding node only, and not its least length. -/
theorem closeLoop_eq (body : Nat) {id exit body' least : Nat} {kind : LoopKind} {d : Draft}
    (h : d.nodes[id]? = some ⟨kind.op body' exit, least⟩) :
    (d.closeLoop id body).nodes[id]? = some ⟨kind.op body exit, least⟩ ∧
      ∀ i, i ≠ id → (d.closeLoop id body).nodes[i]? = d.nodes[i]? := by
  constructor
  · rw [closeLoop, Array.getElem?_modify, if_pos rfl, h]
    cases kind <;> rfl
  · intro i hi
    rw [closeLoop, Array.getElem?_modify, if_neg (Ne.symm hi)]

/-- Putting in the body of a loop makes no node. -/
theorem size_closeLoop (id body : Nat) (d : Draft) :
    (d.closeLoop id body).nodes.size = d.nodes.size := by
  rw [closeLoop, Array.size_modify]

/-- Chaining one more option makes one more decision. -/
theorem chain_append (limit : Nat) (options : List Nat) (option last : Nat) (d : Draft) :
    d.chain limit (options ++ [option]) last =
      (d.chain limit options last).bind fun (id, d) => d.emitBranch limit option id := by
  induction options generalizing last d with
  | nil =>
    simp only [List.nil_append, chain, Option.bind_some]
    cases d.emitBranch limit option last <;> rfl
  | cons first options ih =>
    simp only [List.cons_append, chain, ih]
    cases d.emitBranch limit first last <;> rfl

/-- One more node extends a draft. -/
theorem extends_push (d : Draft) (node : Node) (loops : Nat) :
    d.Extends ⟨d.nodes.push node, loops⟩ :=
  ⟨by simp, fun i hi => by rw [Array.getElem?_push_lt hi, Array.getElem?_eq_getElem hi]⟩

end Draft

/-- A single option is compiled as it is without the alternation. -/
theorem Pattern.compileFor_option (limit : Nat) (p : Pattern) (next : Nat) (d : Draft) :
    (alternation [p]).compileFor limit next d = p.compileFor limit next d := by
  rw [compileFor, compileOptions]
  cases p.compileFor limit next d <;> rfl

/-- Compiling a part for a node extends a draft by a layout of the part. -/
def Part.Builds (part : Part) (compile : Nat → Draft → Option (Nat × Draft)) : Prop :=
  ∀ o next d start d', compile next d = some (start, d') → next < d.nodes.size →
    d.Extends d' ∧ ∃ kinds : LoopKinds, kinds.Within o d.loops d'.loops ∧
      Laid d'.nodes kinds part o next start d.nodes.size d'.nodes.size

namespace Part.Builds

/-- A part that is compiled to nothing. -/
theorem nothing {part : Part} {compile : Nat → Draft → Option (Nat × Draft)}
    (hc : ∀ next d, compile next d = some (next, d))
    (hl : ∀ nodes kinds o next lo, Laid nodes kinds part o next next lo lo) :
    part.Builds compile := by
  intro o next d start d' h _
  obtain ⟨rfl, rfl⟩ := Prod.mk.inj (Option.some.inj ((hc next d).symm.trans h))
  exact ⟨.refl d, .none, .none o d.loops, hl _ _ _ _ _⟩

/-- A part that is compiled and laid out as another one is. -/
theorem of_laid {part part' : Part} {compile compile' : Nat → Draft → Option (Nat × Draft)}
    (h : part.Builds compile)
    (hl : ∀ nodes kinds o next start lo hi, Laid nodes kinds part o next start lo hi →
      Laid nodes kinds part' o next start lo hi)
    (hc : ∀ next d, compile' next d = compile next d) : part'.Builds compile' := by
  intro o next d start d' h' hn
  obtain ⟨he, kinds, hw, hlaid⟩ := h o next d start d' ((hc next d).symm.trans h') hn
  exact ⟨he, kinds, hw, hl _ _ _ _ _ _ _ hlaid⟩

/-- A part that is compiled in another way with the same result. -/
theorem congr {part : Part} {compile compile' : Nat → Draft → Option (Nat × Draft)}
    (h : part.Builds compile) (hc : ∀ next d, compile' next d = compile next d) :
    part.Builds compile' :=
  h.of_laid (fun _ _ _ _ _ _ _ hl => hl) hc

/-- A part that is compiled in front of another one. -/
theorem seq {part first rest : Part} {t t' : Turn} (hne : t ≠ t')
    {compileRest compileFirst : Nat → Draft → Option (Nat × Draft)}
    (hrest : rest.Builds compileRest) (hfirst : first.Builds compileFirst)
    (hl : ∀ nodes kinds o next mid start lo m hi, Laid nodes kinds rest (t :: o) next mid lo m →
      Laid nodes kinds first (t' :: o) mid start m hi → Laid nodes kinds part o next start lo hi) :
    part.Builds (fun next d => do
      let (mid, d) ← compileRest next d
      compileFirst mid d) := by
  intro o next d start d' h hnext
  obtain ⟨⟨mid, d₁⟩, h₁, h₂⟩ := Option.bind_eq_some_iff.mp h
  obtain ⟨he, kinds, hw, hr⟩ := hrest (t :: o) next d mid d₁ h₁ hnext
  have hmid : mid < d₁.nodes.size := by
    have := hr.range
    have := he.le
    omega
  obtain ⟨he', kinds', hw', hf⟩ := hfirst (t' :: o) mid d₁ start d' h₂ hmid
  refine ⟨he.trans he', kinds.union kinds', hw.union hw', hl _ _ _ _ mid _ _ d₁.nodes.size _ ?_ ?_⟩
  · exact he'.transport hr hnext (LoopKinds.Within.left kinds kinds')
  · exact hf.transport hmid (fun _ _ _ => rfl) (fun _ _ => rfl)
      (LoopKinds.Within.right hne hw hw')

/-- The copies of a part are compiled one in front of the other. -/
theorem copies {p : Pattern} {compile : Nat → Draft → Option (Nat × Draft)}
    (hp : Builds (.one p) compile) (n : Nat) :
    Builds (.copies p n) (Draft.copies compile n) := by
  induction n with
  | zero => exact nothing (fun _ _ => rfl) fun _ _ _ _ _ => .noCopies (Or.inl rfl)
  | succ n ih =>
    intro o next d start d' h hnext
    obtain ⟨⟨mid, d₁⟩, h₁, h₂⟩ := Option.bind_eq_some_iff.mp h
    obtain ⟨he, kinds, hw, hl⟩ := hp (.first :: o) next d mid d₁ h₁ hnext
    have hr := hl.range
    have hle := he.le
    dsimp only at h₂
    split at h₂
    · next hm =>
      obtain ⟨rfl, rfl⟩ := Prod.mk.inj (Option.some.inj h₂)
      have hsize : d.nodes.size = d₁.nodes.size := by omega
      have hs : p.isSilent = true := hl.isSilent_iff.mpr hsize
      exact ⟨he, kinds, hw.of_turn, hsize ▸ .noCopies (Or.inr hs)⟩
    · next hm =>
      obtain ⟨he', kinds', hw', hl'⟩ := ih (.rest :: o) mid d₁ start d' h₂ (by omega)
      refine ⟨he.trans he', kinds.union kinds', hw.union hw',
        .copy (he'.transport hl hnext (LoopKinds.Within.left kinds kinds')) ?_⟩
      exact hl'.transport (by omega) (fun _ _ _ => rfl) (fun _ _ => rfl)
        (LoopKinds.Within.right (by decide) hw hw')

/-- Optional copies are put around those that are there already. -/
theorem optionals_around {p : Pattern} {compile : Nat → Draft → Option (Nat × Draft)}
    {limit exit lo a : Nat} {o : Occurrence} (hp : Builds (.one p) compile) (hexit : exit < lo)
    (n : Nat) : ∀ i kinds inner d start d',
      Draft.optionalCopies limit compile exit n inner d = some (start, d') →
      Laid d.nodes kinds (.optionals p i) (List.replicate n .rest ++ o) exit inner lo d.nodes.size →
      (i = 0 ∨ p.isSilent = false) → kinds.Within (List.replicate n .rest ++ o) a d.loops →
      d.Extends d' ∧ ∃ kinds', kinds'.Within o a d'.loops ∧
        Laid d'.nodes kinds' (.optionals p (i + n)) o exit start lo d'.nodes.size := by
  induction n with
  | zero =>
    intro i kinds inner d start d' h hl _ hw
    obtain ⟨rfl, rfl⟩ := Prod.mk.inj (Option.some.inj h)
    exact ⟨.refl d, kinds, hw, hl⟩
  | succ n ih =>
    intro i kinds inner d start d' h hl hi hw
    rw [List.replicate_succ, List.cons_append] at hl hw
    obtain ⟨⟨mid, d₁⟩, h₁, h₂⟩ := Option.bind_eq_some_iff.mp h
    have hr := hl.range
    have hinner : inner < d.nodes.size := by omega
    obtain ⟨he, kinds₁, hw₁, hl₁⟩ :=
      hp (.first :: (List.replicate n .rest ++ o)) inner d mid d₁ h₁ hinner
    have hr₁ := hl₁.range
    have hs := hl₁.isSilent_iff
    have hle := he.le
    have hlw := hw.le
    have hlw₁ := hw₁.le
    dsimp only at h₂
    split at h₂
    · next hm =>
      obtain ⟨rfl, rfl⟩ := Prod.mk.inj (Option.some.inj h₂)
      have hsize : d.nodes.size = d₁.nodes.size := by omega
      have hsilent : p.isSilent = true := hs.mpr hsize
      have hnone : lo = d.nodes.size :=
        hl.isSilent_iff.mp (by simp [Part.isSilent, hsilent])
      obtain rfl : inner = exit := by omega
      have hw' : kinds₁.Within o a d₁.loops :=
        ⟨Nat.le_trans hlw hlw₁, (hw₁.of_turn.of_suffix (List.suffix_append _ _)).below,
          fun o' i hk => ⟨Nat.lt_of_le_of_lt hlw (hw₁.index o' i hk).1, (hw₁.index o' i hk).2⟩,
          hw₁.unique⟩
      refine ⟨he, kinds₁, hw', ?_⟩
      rw [← hsize, ← hnone]
      exact .noOptionals (Or.inr hsilent)
    · next hm =>
      have hsilent : p.isSilent = false :=
        Bool.eq_false_iff.mpr fun hsilent => hm (by have := hs.mp hsilent; omega)
      obtain ⟨⟨id, d₂⟩, h₂, h₃⟩ := Option.bind_eq_some_iff.mp h₂
      obtain ⟨rfl, rfl⟩ := Draft.emitBranch_eq h₂
      have he₂ := Draft.extends_push d₁ ⟨.branch mid exit,
        min (leastFrom d₁.nodes mid) (leastFrom d₁.nodes exit)⟩ d₁.loops
      have hnode : Laid _ (kinds.union kinds₁) (.optionals p (i + 1))
          (List.replicate n .rest ++ o) exit d₁.nodes.size lo (d₁.nodes.size + 1) :=
        .optional hsilent
          ((he.trans he₂).transport hl hexit (LoopKinds.Within.left kinds kinds₁))
          (he₂.transport hl₁ hinner (LoopKinds.Within.right (by decide) hw hw₁))
          (by rw [Array.getElem?_push_size, he₂.least (by omega), he₂.least (by omega)])
      rw [← Array.size_push] at hnode
      obtain ⟨he₃, kinds', hw', hl₃⟩ :=
        ih (i + 1) _ _ _ start d' h₃ hnode (Or.inr hsilent) (hw.union hw₁)
      exact ⟨(he.trans he₂).trans he₃, kinds', hw', by rwa [Nat.add_right_comm] at hl₃⟩

/-- The optional copies of a part are put one around the other. -/
theorem optionals {p : Pattern} {compile : Nat → Draft → Option (Nat × Draft)} (limit : Nat)
    (hp : Builds (.one p) compile) (n : Nat) :
    Builds (.optionals p n) (fun next => Draft.optionalCopies limit compile next n next) := by
  intro o next d start d' h hnext
  have hnone : Laid d.nodes .none (.optionals p 0) (List.replicate n .rest ++ o) next next
      d.nodes.size d.nodes.size := .noOptionals (Or.inl rfl)
  have := optionals_around hp hnext n 0 .none next d start d' h hnone (Or.inl rfl) (.none _ d.loops)
  rwa [Nat.zero_add] at this

/-- A loop is compiled with its deciding node in front of the body. -/
theorem loop {p : Pattern} {compile : Nat → Draft → Option (Nat × Draft)} (limit : Nat)
    (hp : Builds (.one p) compile) :
    Builds (.loop p) (fun next d => do
      let (id, d) ← d.emitLoop limit p.isNullable next
      let (body, d) ← compile id d
      some (id, d.closeLoop id body)) := by
  intro o next d start d' h hnext
  obtain ⟨⟨id, d₁⟩, h₁, h⟩ := Option.bind_eq_some_iff.mp h
  obtain ⟨⟨body, d₂⟩, h₂, h⟩ := Option.bind_eq_some_iff.mp h
  obtain ⟨rfl, rfl⟩ := Prod.mk.inj (Option.some.inj h)
  obtain ⟨kind, hg, rfl, hnodes, hle, hkey⟩ := Draft.emitLoop_eq h₁
  have hsize : d₁.nodes.size = d.nodes.size + 1 := by rw [hnodes, Array.size_push]
  obtain ⟨he, kinds, hw, hl⟩ :=
    hp (.first :: o) d.nodes.size d₁ body d₂ h₂ (by rw [hsize]; exact Nat.lt_succ_self _)
  have hnode : d₂.nodes[d.nodes.size]? =
      some ⟨kind.op next next, leastFrom d.nodes next⟩ := by
    rw [he.same _ (by omega), hnodes, Array.getElem?_push_size]
  obtain ⟨hself, hother⟩ := Draft.closeLoop_eq body hnode
  have hold : ∀ i, i < d.nodes.size →
      (d₂.closeLoop d.nodes.size body).nodes[i]? = d.nodes[i]? := by
    intro i hi
    rw [hother i (by omega), he.same i (by omega), hnodes, Array.getElem?_push_lt hi,
      Array.getElem?_eq_getElem hi]
  have hleast : ∀ i, leastFrom (d₂.closeLoop d.nodes.size body).nodes i =
      leastFrom d₂.nodes i := by
    intro i
    by_cases hi : i = d.nodes.size
    · subst hi
      rw [leastFrom_eq hself, leastFrom_eq hnode]
    · rw [leastFrom, leastFrom, hother i hi]
  have hsize₂ := Draft.size_closeLoop d.nodes.size body d₂
  have hle₂ := he.le
  rw [hsize] at hl
  have hbody : Laid (d₂.closeLoop d.nodes.size body).nodes (kinds.insert o kind) (.one p)
      (.first :: o) d.nodes.size body (d.nodes.size + 1) d₂.nodes.size :=
    hl.transport (Nat.lt_succ_self _) (fun i hi _ => hother i (by omega)) (fun i _ => hleast i)
      (hw.inserted kind)
  refine ⟨⟨by omega, hold⟩, kinds.insert o kind, hw.insert hle hkey, ?_⟩
  rw [hsize₂]
  refine .loop hg (if_pos rfl) ?_ hbody
  rw [hself, leastFrom, leastFrom, hold next hnext]

/-- A capture group is compiled between its marks, its end first. -/
theorem capture {i : Nat} {p : Pattern} {compile : Nat → Draft → Option (Nat × Draft)}
    (limit : Nat) (hp : Builds (.one p) compile) :
    Builds (.one (.capture i p)) (fun next d => do
      let (stop, d) ← d.emit limit (.mark i next) (d.minLength next)
      let (body, d) ← compile stop d
      d.emit limit (.mark i body) (d.minLength body)) := by
  intro o next d start d' h hnext
  obtain ⟨⟨stop, d₁⟩, h₁, h⟩ := Option.bind_eq_some_iff.mp h
  obtain ⟨⟨body, d₂⟩, h₂, h₃⟩ := Option.bind_eq_some_iff.mp h
  obtain ⟨rfl, rfl⟩ := Draft.emit_eq h₁
  obtain ⟨rfl, rfl⟩ := Draft.emit_eq h₃
  have he₁ := Draft.extends_push d ⟨.mark i next, d.minLength next⟩ d.loops
  have hsize : (d.nodes.push ⟨.mark i next, d.minLength next⟩).size = d.nodes.size + 1 :=
    Array.size_push _
  obtain ⟨he, kinds, hw, hl⟩ := hp (.first :: o) d.nodes.size _ body d₂ h₂ (by
    simp only [Array.size_push]
    exact Nat.lt_succ_self _)
  have he₂ := Draft.extends_push d₂ ⟨.mark i body, d₂.minLength body⟩ d₂.loops
  have hr := hl.range
  have hle := he.le
  simp only [Array.size_push] at hl hr hle
  refine ⟨(he₁.trans he).trans he₂, kinds, hw.of_turn, ?_⟩
  rw [Array.size_push]
  refine .capture ?_ (he₂.transport hl (Nat.lt_succ_self _) fun _ _ => id) ?_
  · rw [he₂.same _ (by omega), he.same _ (by rw [hsize]; omega), Array.getElem?_push_size,
      ((he₁.trans he).trans he₂).least hnext]
    rfl
  · rw [Array.getElem?_push_size, he₂.least (by omega)]
    rfl

/-- A single option is compiled without a decision. -/
theorem lastOption {p : Pattern} (limit : Nat) (hp : Builds (.one p) (p.compileFor limit)) :
    Builds (.options [p]) ((Pattern.alternation [p]).compileFor limit) := by
  intro o next d start d' h hnext
  rw [Pattern.compileFor_option] at h
  obtain ⟨he, kinds, hw, hl⟩ := hp (.first :: o) next d start d' h hnext
  exact ⟨he, kinds, hw.of_turn, .lastOption hl⟩

/-- The first option is compiled before the other ones, and the decision between them last. -/
theorem option {p q : Pattern} {ps : List Pattern}
    {compile compileRest : Nat → Draft → Option (Nat × Draft)} (limit : Nat)
    (hp : Builds (.one p) compile) (hrest : Builds (.options (q :: ps)) compileRest) :
    Builds (.options (p :: q :: ps)) (fun next d => do
      let (first, d) ← compile next d
      let (rest, d) ← compileRest next d
      d.emitBranch limit first rest) := by
  intro o next d start d' h hnext
  obtain ⟨⟨first, d₁⟩, h₁, h⟩ := Option.bind_eq_some_iff.mp h
  obtain ⟨⟨rest, d₂⟩, h₂, h₃⟩ := Option.bind_eq_some_iff.mp h
  obtain ⟨he₁, kinds₁, hw₁, hl₁⟩ := hp (.first :: o) next d first d₁ h₁ hnext
  have hle₁ := he₁.le
  obtain ⟨he₂, kinds₂, hw₂, hl₂⟩ := hrest (.rest :: o) next d₁ rest d₂ h₂ (by omega)
  obtain ⟨rfl, rfl⟩ := Draft.emitBranch_eq h₃
  have hle₂ := he₂.le
  have he₃ := Draft.extends_push d₂
    ⟨.branch first rest, min (leastFrom d₂.nodes first) (leastFrom d₂.nodes rest)⟩ d₂.loops
  have hr₁ := hl₁.range
  have hr₂ := hl₂.range
  have hl₁' := (he₂.trans he₃).transport hl₁ hnext (LoopKinds.Within.left kinds₁ kinds₂)
  have hl₂' := he₃.transport hl₂ (by omega) (LoopKinds.Within.right (by decide) hw₁ hw₂)
  refine ⟨(he₁.trans he₂).trans he₃, kinds₁.union kinds₂, hw₁.union hw₂, ?_⟩
  rw [Array.size_push]
  refine .option hl₁' hl₂' ?_
  rw [Array.getElem?_push_size, he₃.least (by omega), he₃.least (by omega)]

/-- A pattern without patterns inside it is compiled to a single node. -/
theorem leaf {p : Pattern} (limit : Nat) (hp : p.isLeaf = true) :
    Builds (.one p) (p.compileFor limit) := by
  have emit {p : Pattern} {compile : Nat → Draft → Option (Nat × Draft)} (op : Nat → Op)
      (width : Nat) (hl : ∀ next, p.leafOp? next = some (op next, width))
      (hc : ∀ next d, compile next d = d.emit limit (op next) (d.minLength next + width)) :
      Builds (.one p) compile := by
    intro o next d start d' h hnext
    obtain ⟨rfl, rfl⟩ := Draft.emit_eq ((hc next d).symm.trans h)
    have he := Draft.extends_push d ⟨op next, d.minLength next + width⟩ d.loops
    refine ⟨he, .none, .none o d.loops, ?_⟩
    rw [Array.size_push]
    refine .leaf (hl next) ?_
    rw [Array.getElem?_push_size, he.least hnext]
    rfl
  cases p with
  | literal s =>
    by_cases hs : s.isEmpty = true
    · exact nothing (fun next d => by rw [Pattern.compileFor, if_pos hs])
        fun _ _ _ _ _ => .empty hs
    · exact emit (.literal s) s.utf8ByteSize (fun next => by rw [Pattern.leafOp?, if_neg hs])
        fun next d => by rw [Pattern.compileFor, if_neg hs]
  | anyChar => exact emit .anyChar 1 (fun _ => rfl) fun _ _ => by rw [Pattern.compileFor]
  | charClass cls =>
    exact emit (.charClass cls) 1 (fun _ => rfl) fun _ _ => by rw [Pattern.compileFor]
  | backReference i =>
    exact emit (.backReference i) 0 (fun _ => rfl) fun _ _ => by rw [Pattern.compileFor]; rfl
  | textStart => exact emit .textStart 0 (fun _ => rfl) fun _ _ => by rw [Pattern.compileFor]; rfl
  | textEnd => exact emit .textEnd 0 (fun _ => rfl) fun _ _ => by rw [Pattern.compileFor]; rfl
  | _ => simp [Pattern.isLeaf] at hp

end Part.Builds

/-- How a part is compiled for the node that follows it. -/
def Part.compile (limit : Nat) : Part → Nat → Draft → Option (Nat × Draft)
  | .one p => p.compileFor limit
  | .items ps => Pattern.compileItems limit ps
  | .options ps => (Pattern.alternation ps).compileFor limit
  | .copies p n => Draft.copies (p.compileFor limit) n
  | .optionals p n => fun next => Draft.optionalCopies limit (p.compileFor limit) next n next
  | .loop p => fun next d => do
    let (id, d) ← d.emitLoop limit p.isNullable next
    let (body, d) ← p.compileFor limit id d
    some (id, d.closeLoop id body)

/-- A repetition is compiled as its parts are, the mandatory copies last. -/
theorem Part.compile_repetition (limit : Nat) (p : Pattern) (min : Nat) (max : Option Nat)
    (next : Nat) (d : Draft) :
    (Pattern.repetition p min max).compileFor limit next d = (do
      let (mid, d) ← (more p min max).compile limit next d
      (Part.copies p min).compile limit mid d) := by
  cases max with
  | some max =>
    rw [Pattern.compileFor]
    rfl
  | none =>
    rw [Pattern.compileFor]
    simp only [more, compile, bind_assoc]
    rfl

/-- The first option is compiled before the other ones, and the decision between them last. -/
theorem Part.compile_options (limit : Nat) (p q : Pattern) (ps : List Pattern) (next : Nat)
    (d : Draft) :
    (Part.options (p :: q :: ps)).compile limit next d = (do
      let (first, d) ← p.compileFor limit next d
      let (rest, d) ← (Part.options (q :: ps)).compile limit next d
      d.emitBranch limit first rest) := by
  simp only [compile, Pattern.compileFor, Pattern.compileOptions, bind_assoc]
  refine bind_congr fun (first, d) => bind_congr fun (second, d) => bind_congr fun (starts, d) => ?_
  simp only [Option.bind_eq_bind, Option.bind_some]
  rw [List.reverse_cons]
  cases hr : (second :: starts).reverse with
  | nil => simp at hr
  | cons last earlier =>
    rw [List.cons_append]
    exact d.chain_append limit earlier first last

/-- Compiling a part lays it out behind the nodes that there are. -/
theorem Part.builds (limit : Nat) (part : Part) : part.Builds (part.compile limit) := by
  induction part using Part.induct with
  | leaf p hp => exact Builds.leaf limit hp
  | sequence ps ih =>
    exact ih.of_laid (fun _ _ _ _ _ _ _ h => .sequence h) fun _ _ => by
      rw [compile, compile, Pattern.compileFor]
  | alternation ps ih => exact ih.of_laid (fun _ _ _ _ _ _ _ h => .alternation h) fun _ _ => rfl
  | repetition p min max ihmore ihcopies =>
    exact (Builds.seq (by decide) ihmore ihcopies fun _ _ _ _ _ _ _ _ _ h h' =>
      .repetition h h').congr (Part.compile_repetition limit p min max)
  | capture i p ih =>
    exact (Builds.capture limit ih).congr fun _ _ => by rw [compile, Pattern.compileFor]; rfl
  | noItems => exact Builds.nothing (fun _ _ => rfl) fun _ _ _ _ _ => .noItems
  | item p ps ihp ihps =>
    exact (Builds.seq (by decide) ihps ihp fun _ _ _ _ _ _ _ _ _ h h' => .item h h').congr
      fun _ _ => rfl
  | noOptions => exact Builds.nothing (fun _ _ => rfl) fun _ _ _ _ _ => .noOptions
  | option p ps ihp ihps =>
    cases ps with
    | nil => exact Builds.lastOption limit ihp
    | cons q ps =>
      exact (Builds.option limit ihp ihps).congr (Part.compile_options limit p q ps)
  | noCopies p => exact Builds.nothing (fun _ _ => rfl) fun _ _ _ _ _ => .noCopies (Or.inl rfl)
  | copy p n ih _ => exact Builds.copies ih (n + 1)
  | noOptionals p =>
    exact Builds.nothing (fun _ _ => rfl) fun _ _ _ _ _ => .noOptionals (Or.inl rfl)
  | optional p n ih _ => exact Builds.optionals limit ih (n + 1)
  | loop p ih => exact Builds.loop limit ih

/-- The loops of the program and their kinds, by which it is a layout of the pattern. -/
structure Program.Lays (prog : Program) (p : Pattern) (kinds : LoopKinds) : Prop where
  success : prog.nodes[0]? = some ⟨.success, 0⟩
  laid : Laid prog.nodes kinds (.one p) [] 0 prog.root 1 prog.nodes.size
  unique : kinds.Unique
  groups : prog.groups = p.groupCount

/-- A compiled pattern is laid out behind the node of success. -/
theorem Pattern.lays_of_compile? {limit : Nat} {p : Pattern} {prog : Program}
    (h : p.compile? limit = some prog) : ∃ kinds, prog.Lays p kinds := by
  obtain ⟨⟨success, d₁⟩, h₁, h'⟩ := Option.bind_eq_some_iff.mp h
  obtain ⟨⟨root, d₂⟩, h₂, h₃⟩ := Option.bind_eq_some_iff.mp h'
  obtain ⟨rfl, rfl⟩ := Draft.emit_eq h₁
  obtain rfl := Option.some.inj h₃
  obtain ⟨he, kinds, hw, hl⟩ := Part.builds limit (.one p) [] _ _ _ _ h₂ (by decide)
  exact ⟨kinds, he.same 0 (by decide), hl, hw.unique, rfl⟩

end BacktrackRegex
