import StrictJson.Proofs.Document.Brackets
import StrictJson.Proofs.Document.Classification
import StrictJson.Proofs.Document.Depth

/-!
# Cuts

Two runs of one document under different bounds on the depth keep in step until the first bracket
above the smaller bound. There the one run is rejected, and the other goes on. So the smaller bound
changes nothing, or cuts the document at that bracket: `maxDepth_only_cuts`.
-/

namespace StrictJson.Document

open Cursor

variable {o o' : ParseOptions} {outer : List Frame} {s : State} {c : Cursor} {x y z : Place}
  {bs : List UInt8}

/-! ## Steps -/

section

variable [Platform]

/-- A step under `o` is rejected at a bracket for the depth, and the same step under `o'` passes the
bracket, if the nesting limit allows. -/
structure IsCutStep (o o' : ParseOptions) (s : State) (c : Cursor) : Prop where
  level_eq : s.level = o.maxDepth
  rejected : step o s c = violate c.position (.tooDeep o.maxDepth)
  opens : ∃ b r s', c.rest = b :: r ∧ isOpening b = true ∧ s'.IsStart ∧
    s'.level = o.maxDepth + 1 ∧ (step o' s c = .ok (.next s' ⟨c.position + 1, r⟩) ∨
      step o' s c = .error ⟨.nestingLimit, c.position⟩)

/-- Where a bracket opens a container, a step under two bounds is the same or cut. -/
theorem isCutStep_of_openContainer {b : UInt8} {r : List UInt8} (start : State)
    (h : o.maxDepth < o'.maxDepth) (hlevel : s.level = outer.length)
    (hle : outer.length ≤ o.maxDepth) (hrest : c.rest = b :: r) (hb : isOpening b = true)
    (hstart : start.IsStart) (hstartLevel : start.level = outer.length + 1)
    (hstep : ∀ o, step o s c = openContainer o outer c start r) :
    step o s c = step o' s c ∨ IsCutStep o o' s c := by
  have hlt : outer.length < o'.maxDepth := Nat.lt_of_le_of_lt hle h
  by_cases hdepth : o.maxDepth ≤ outer.length
  · have heq : outer.length = o.maxDepth := Nat.le_antisymm hle hdepth
    refine .inr ⟨hlevel.trans heq, ?_, b, r, start, hrest, hb, hstart, heq ▸ hstartLevel, ?_⟩
    · rw [hstep, openContainer, if_pos hdepth]
    · rw [hstep]
      exact openContainer_of_lt c start r hlt
  · rw [hstep, hstep, openContainer, openContainer, if_neg hdepth, if_neg (Nat.not_le.2 hlt)]
    exact .inl rfl

/-- Where a value is due, a step under two bounds is the same or cut. -/
theorem step_value_of_lt (outer : List Frame) (c : Cursor) (h : o.maxDepth < o'.maxDepth)
    (hle : outer.length ≤ o.maxDepth) :
    step o (.value outer) c = step o' (.value outer) c ∨ IsCutStep o o' (.value outer) c := by
  cases hrest : c.rest with
  | nil =>
    exact .inl (by simp only [step, readValue, hrest])
  | cons b r =>
    by_cases hbrace : b = 0x7B
    · exact isCutStep_of_openContainer (.objectStart outer) h rfl hle hrest
        (by rw [hbrace]; rfl) trivial rfl fun o => by
          simp only [step, readValue, hrest, hbrace]
          rfl
    by_cases hbracket : b = 0x5B
    · exact isCutStep_of_openContainer (.arrayStart outer) h rfl hle hrest
        (by rw [hbracket]; rfl) trivial rfl fun o => by
          simp only [step, readValue, hrest, hbracket]
          rfl
    exact .inl (by simp only [step, readValue, hrest, if_neg hbrace, if_neg hbracket])

/-- A step that goes as another one is cut as the other one. -/
theorem IsCutStep.of_step_eq {s' : State} (h : IsCutStep o o' s c) (hlevel : s'.level = s.level)
    (hstep : ∀ o, step o s' c = step o s c) : IsCutStep o o' s' c := by
  obtain ⟨heq, hrejected, hopens⟩ := h
  refine ⟨hlevel.trans heq, (hstep o).trans hrejected, ?_⟩
  rw [hstep o']
  exact hopens

/-- A step under two bounds is the same, or cut. -/
theorem step_of_lt (h : o.maxDepth < o'.maxDepth) (hle : s.level ≤ o.maxDepth) :
    step o s c = step o' s c ∨ IsCutStep o o' s c := by
  cases s with
  | value outer => exact step_value_of_lt outer c h hle
  | arrayStart outer =>
    by_cases hclose : c.rest.head? = some 0x5D
    · obtain ⟨r, hrest⟩ := List.head?_eq_some_iff.1 hclose
      simp only [step, hrest]
      exact .inl rfl
    · rcases step_value_of_lt (.array [] :: outer) c h hle with heq | hcut
      · rw [step_arrayStart_eq hclose, step_arrayStart_eq hclose]
        exact .inl heq
      · exact .inr (hcut.of_step_eq rfl fun _ => step_arrayStart_eq hclose)
  | _ => exact .inl rfl

/-! ## Runs -/

/-- A run never opens more containers than the options allow. -/
theorem Reaches.level_le (h : Reaches o x y) (hx : x.1.level ≤ o.maxDepth) :
    y.1.level ≤ o.maxDepth := by
  induction h with
  | refl => exact hx
  | tail _ hgoes ih =>
    obtain ⟨_, _, _, hmoves, _⟩ := hgoes.moves
    exact hmoves.level_le ih

/-- A step that goes on under a bound goes on under a greater one. -/
theorem Goes.of_le (h : o.maxDepth ≤ o'.maxDepth) (hgoes : Goes o x y) : Goes o' x y := by
  unfold Goes at hgoes ⊢
  rcases step_of_le h x.1 x.2.skipBlanks with heq | hdeep
  · exact heq ▸ hgoes
  · rw [hgoes] at hdeep
    cases hdeep

/-- What a run reaches under a bound, it reaches under a greater one. -/
theorem Reaches.of_le (h : o.maxDepth ≤ o'.maxDepth) (hreaches : Reaches o x y) :
    Reaches o' x y :=
  Relation.ReflTransGen.mono (fun _ _ => Goes.of_le h) _ _ hreaches

/-- On its way from a place, a run under `o` comes to where it is cut. -/
def IsCutFrom (o o' : ParseOptions) (x : Place) : Prop :=
  ∃ y, Reaches o x y ∧ IsCutStep o o' y.1 y.2.skipBlanks

/-- What a run reaches under a bound, it reaches under a smaller one, if that does not cut it. -/
theorem Reaches.of_lt (h : o.maxDepth < o'.maxDepth) (hx : x.1.level ≤ o.maxDepth)
    (hreaches : Reaches o' x y) : Reaches o x y ∨ IsCutFrom o o' x := by
  induction hreaches with
  | refl => exact .inl .refl
  | @tail y z _ hgoes ih =>
    rcases ih with hy | hcut
    · rcases step_of_lt h (hy.level_le hx) with heq | hcut
      · exact .inl (hy.tail (heq.trans hgoes))
      · exact .inr ⟨y, hy, hcut⟩
    · exact .inr hcut

/-- A run under two bounds ends the same way, if the smaller one does not cut it. -/
theorem run_of_lt (h : o.maxDepth < o'.maxDepth) (hs : s.level ≤ o.maxDepth) :
    run o s c = run o' s c ∨ IsCutFrom o o' (s, c) := by
  fun_induction run o s c with
  | case1 s c e hstep =>
    rcases step_of_lt h hs with heq | hcut
    · exact .inl (run_of_error (heq ▸ hstep)).symm
    · exact .inr ⟨(s, c), .refl, hcut⟩
  | case2 s c t hstep =>
    rcases step_of_lt h hs with heq | hcut
    · exact .inl (run_of_done (heq ▸ hstep)).symm
    · exact .inr ⟨(s, c), .refl, hcut⟩
  | case3 s c s' c' hstep ih =>
    have hgoes : Goes o (s, c) (s', c') := hstep
    rcases ih (Reaches.level_le (.single hgoes) hs) with heq | hcut
    · exact .inl (heq.trans (run_of_next (hgoes.of_le (Nat.le_of_lt h))).symm)
    · obtain ⟨y, hreaches, hy⟩ := hcut
      exact .inr ⟨y, .head hgoes hreaches, hy⟩

/-! ## Documents -/

/-- The run of a document comes to a bracket at the offset and opens a container at the level, which
is one for the outermost. -/
def OpensContainer (o : ParseOptions) (bs : List UInt8) (level p : Nat) : Prop :=
  ∃ y z, Reaches o (start bs) y ∧ Goes o y z ∧ z.1.IsStart ∧ z.1.level = level ∧
    y.2.skipBlanks.position = p

/-- The bound `m` cuts the document at the offset: it is rejected there for its depth, at the first
bracket of the text that opens a container above the bound. Under the bound `m'` it is not rejected
before that bracket. -/
structure IsCut (m m' : Nat) (bs : List UInt8) (p : Nat) : Prop where
  rejected : parse ⟨m⟩ (.octets bs) = .error ⟨.violation (.tooDeep m), p⟩
  outcome : Outcome.ofExcept (parse ⟨m⟩ (.octets bs)) = ⟨none, some (.syntaxError,
    "Maximum nesting depth of " ++ String.ofList (Nat.toDigits 10 m) ++ " exceeded", p)⟩
  first : IsFirstOpening bs (m + 1) p
  ahead : ∀ e, parse ⟨m'⟩ (.octets bs) = .error e → p ≤ e.position

/-- Where a cut comes, the bracket is the first of the text that opens a container above the
bound. -/
theorem Reaches.isFirstOpening {b : UInt8} {r : List UInt8} (h : Reaches o (start bs) y)
    (hlevel : y.1.level = o.maxDepth) (hrest : y.2.skipBlanks.rest = b :: r)
    (hb : isOpening b = true) :
    IsFirstOpening bs (o.maxDepth + 1) y.2.skipBlanks.position := by
  obtain ⟨before, hbefore, hleads⟩ := h.leads
  have hpasses := hbefore.trans (passes_skipBlanks y.2)
  have hblanks : IsBlanks (y.2.rest.takeWhile isBlank) := isBlanks_takeWhile _
  have hfirst := (hleads.trans (leads_of_isBlanks hblanks))
  rw [hlevel] at hfirst
  have hbs : bs = before ++ y.2.rest.takeWhile isBlank ++ b :: r := hrest ▸ hpasses.1
  have hposition : y.2.skipBlanks.position = (before ++ y.2.rest.takeWhile isBlank).length := by
    rw [hpasses.2]
    exact Nat.zero_add _
  rw [hposition, hbs]
  exact hfirst.isFirstOpening hb

variable {m m' : Nat}

/-- A document whose run is cut is cut at a bracket, at which the run under the greater bound opens
a container. -/
theorem exists_isCut (hlimit : ∀ p, parse ⟨m'⟩ (.octets bs) ≠ .error ⟨.nestingLimit, p⟩)
    (hlt : m < m') (h : IsCutFrom ⟨m⟩ ⟨m'⟩ (start bs)) :
    ∃ p, IsCut m m' bs p ∧ OpensContainer ⟨m'⟩ bs (m + 1) p := by
  obtain ⟨y, hreaches, hlevel, hrejected, b, r, s', hrest, hb, hstart, hlevel', hstep⟩ := h
  have hreaches' : Reaches ⟨m'⟩ (start bs) y := hreaches.of_le (Nat.le_of_lt hlt)
  have hparse : parse ⟨m⟩ (.octets bs) =
      .error ⟨.violation (.tooDeep m), y.2.skipBlanks.position⟩ :=
    hreaches.run_eq.trans (run_of_error hrejected)
  rcases hstep with hgoes | hdeep
  · refine ⟨_, ⟨hparse, congrArg Outcome.ofExcept hparse,
      hreaches.isFirstOpening hlevel hrest hb, fun e he => ?_⟩,
      y, (s', ⟨_, r⟩), hreaches', hgoes, hstart, hlevel', rfl⟩
    have hrun := (hreaches'.run_eq.trans (run_of_next hgoes)).symm.trans he
    exact Nat.le_of_succ_le (isAhead_of_run hrun).le
  · exact absurd (hreaches'.run_eq.trans (run_of_error hdeep)) (hlimit _)

/-- A run that opens a container above a bound is cut by the bound. -/
theorem OpensContainer.isCutFrom {p : Nat} (hlt : m < m')
    (h : OpensContainer ⟨m'⟩ bs (m + 1) p) : IsCutFrom ⟨m⟩ ⟨m'⟩ (start bs) := by
  obtain ⟨y, z, hreaches, hgoes, -, hlevel, -⟩ := h
  rcases Reaches.of_lt (o := ⟨m⟩) hlt (Nat.zero_le _) (hreaches.tail hgoes) with hz | hcut
  · have : z.1.level ≤ m := hz.level_le (Nat.zero_le _)
    omega
  · exact hcut

/-- Of two bounds on the depth, the smaller one changes nothing, or it cuts the document at the
first bracket of the text that opens a container above it. The bound cuts exactly those documents
whose run under the greater bound opens a container above the smaller one, whatever becomes of the
container. The run under the greater bound must stay below the nesting limit. -/
theorem maxDepth_only_cuts (hlt : m < m')
    (hlimit : ∀ p, parse ⟨m'⟩ (.octets bs) ≠ .error ⟨.nestingLimit, p⟩) :
    (parse ⟨m⟩ (.octets bs) = parse ⟨m'⟩ (.octets bs) ∨ ∃ p, IsCut m m' bs p) ∧
    ((∃ p, IsCut m m' bs p) ↔ ∃ p, OpensContainer ⟨m'⟩ bs (m + 1) p) := by
  have hrun : parse ⟨m⟩ (.octets bs) = parse ⟨m'⟩ (.octets bs) ∨
      IsCutFrom ⟨m⟩ ⟨m'⟩ (start bs) := run_of_lt hlt (Nat.zero_le _)
  refine ⟨hrun.imp_right fun hcut => ?_, ?_, ?_⟩
  · obtain ⟨p, hp, -⟩ := exists_isCut hlimit hlt hcut
    exact ⟨p, hp⟩
  · rintro ⟨p, hp⟩
    rcases hrun with heq | hcut
    · -- Under the greater bound no document is rejected for the smaller one.
      rcases cause_of_parseOctets (heq ▸ hp.rejected) with ⟨v, hv, hdepth⟩ | hcause | hcause
      · have hm : m = m' := hdepth m (Cause.violation.inj hv).symm
        omega
      · cases hcause
      · cases hcause
    · obtain ⟨q, -, hq⟩ := exists_isCut hlimit hlt hcut
      exact ⟨q, hq⟩
  · rintro ⟨p, hp⟩
    obtain ⟨q, hq, -⟩ := exists_isCut hlimit hlt (hp.isCutFrom hlt)
    exact ⟨q, hq⟩

end

/-- An object with one key twice, first with an empty array and then with `null`. -/
def overwritten : List UInt8 :=
  [0x7B, 0x22, 0x6B, 0x22, 0x3A, 0x5B, 0x5D, 0x2C, 0x22, 0x6B, 0x22, 0x3A, 0x6E, 0x75, 0x6C, 0x6C,
    0x7D]

/-- A value counts for the depth even if it is overwritten and the tree that is read is shallow. -/
theorem maxDepth_only_cuts_overwritten :
    parse ⟨2⟩ (.octets overwritten) = .ok (.object [("k", .null)]) ∧
      (Tree.object [("k", .null)]).depth = 1 ∧ IsCut 1 2 overwritten 5 := by
  have hreaches (o : ParseOptions) (ho : o = ⟨1⟩ ∨ o = ⟨2⟩) :
      Reaches o (start overwritten) (.value [.object [] "k"], ⟨5, overwritten.drop 5⟩) := by
    have h₁ : Goes o (start overwritten) (.objectStart [], ⟨1, overwritten.drop 1⟩) := by
      rcases ho with rfl | rfl <;> rfl
    have h₂ : Goes o (.objectStart [], ⟨1, overwritten.drop 1⟩)
        (.colon [] "k" [], ⟨4, overwritten.drop 4⟩) := rfl
    exact .head h₁ (.head h₂ (.single rfl))
  have hgoes : Goes ⟨2⟩ (.value [.object [] "k"], ⟨5, overwritten.drop 5⟩)
      (.arrayStart [.object [] "k"], ⟨6, overwritten.drop 6⟩) := rfl
  have hshallow : parse ⟨1⟩ (.octets overwritten) = .error ⟨.violation (.tooDeep 1), 5⟩ :=
    (hreaches _ (.inl rfl)).run_eq.trans (run_of_error rfl)
  have hdeep : parse ⟨2⟩ (.octets overwritten) = .ok (.object [("k", .null)]) := by
    refine (hreaches _ (.inr rfl)).run_eq.trans ((run_of_next hgoes).trans ?_)
    exact (run_of_next rfl).trans <| (run_of_next rfl).trans <| (run_of_next rfl).trans <|
      (run_of_next rfl).trans <| (run_of_next rfl).trans <| (run_of_next rfl).trans <|
      run_of_done rfl
  have hlimit (p : Nat) : parse ⟨2⟩ (.octets overwritten) ≠ .error ⟨.nestingLimit, p⟩ := by
    rw [hdeep]
    simp
  obtain ⟨p, hp⟩ := (maxDepth_only_cuts (m := 1) (by decide) hlimit).2.2
    ⟨5, _, _, hreaches _ (.inr rfl), hgoes, trivial, rfl, rfl⟩
  obtain ⟨-, rfl⟩ := Rejection.mk.inj (Except.error.inj (hp.rejected.symm.trans hshallow))
  exact ⟨hdeep, rfl, hp⟩

end StrictJson.Document
