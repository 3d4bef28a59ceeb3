import StrictJson.Proofs.Document.Descent
import StrictJson.Proofs.Document.Scanners

/-!
# A logic of methods

What is proved of a method is that it keeps the cursor between where it was and the end of the
document, whether it returns or breaks off, and that it breaks off for no fault: `Keeps`. `Meets`
says in addition what holds where it returns, and of the stop where it does not. There is one rule
for each way to put methods together; the rule for loops asks for an invariant, and that each
iteration moves the cursor.

The octets from an offset on are what the scanners of the document machine are given there. They
are a view for proofs only: `cursorAt`.
-/

namespace StrictJson.Document.Descent

open Cursor

variable {α β γ δ σ : Type} {d : List UInt8} {m : Method α} {f : α → Method β} {p q : Nat} {a : α}
  {b : UInt8} {e : Stop} {P P' : α → Nat → Prop} {Q : β → Nat → Prop} {E E' : Stop → Prop}

/-! ## The discipline -/

/-- From the offset, a method leaves the cursor between there and the end, and it does not break off
for a fault. -/
structure Keeps (d : List UInt8) (m : Method α) (p : Nat) : Prop where
  le : p ≤ (m.from p).2
  le_length : (m.from p).2 ≤ d.length
  sound : ∀ e, (m.from p).1 = .error e → ¬e.IsFault

/-- A method keeps the discipline, what it returns is as wanted at the offset where it leaves the
cursor, and if it breaks off, the stop is as wanted. -/
structure Meets (d : List UInt8) (m : Method α) (p : Nat) (P : α → Nat → Prop)
    (E : Stop → Prop) : Prop extends Keeps d m p where
  returns : ∀ a, (m.from p).1 = .ok a → P a (m.from p).2
  stops : ∀ e, (m.from p).1 = .error e → E e

/-! ## Rules -/

/-- A method goes on with what was returned, from where the cursor was left. -/
theorem from_bind (m : Method α) (f : α → Method β) (p : Nat) :
    (m >>= f).from p = match m.from p with
      | (.ok a, q) => (f a).from q
      | (.error e, q) => (.error e, q) := by
  unfold Method.from ExceptT.run StateT.run Id.run
  simp only [bind, ExceptT.bind, ExceptT.mk, StateT.bind, ExceptT.bindCont]
  cases m p with
  | mk result q => cases result <;> rfl

/-- A method that returns keeps the discipline by where it leaves the cursor. -/
theorem keeps_of_ok (h : m.from p = (.ok a, q)) (hp : p ≤ q) (hq : q ≤ d.length) :
    Keeps d m p := by
  constructor <;> simp [h, hp, hq]

/-- A method that returns is judged by what it returns and where it leaves the cursor. -/
theorem Meets.of_ok (h : m.from p = (.ok a, q)) (hp : p ≤ q) (hq : q ≤ d.length) (ha : P a q) :
    Meets d m p P E := by
  constructor
  · exact keeps_of_ok h hp hq
  · intro a' ha'
    rw [h] at ha' ⊢
    cases ha'
    exact ha
  · intro e he
    rw [h] at he
    cases he

/-- A method that breaks off is judged by the stop and where it leaves the cursor. -/
theorem Meets.of_error (h : m.from p = (.error e, q)) (hp : p ≤ q) (hq : q ≤ d.length)
    (hsound : ¬e.IsFault) (he : E e) : Meets d m p P E := by
  have heq (e' : Stop) (he' : (m.from p).1 = .error e') : e' = e := by
    rw [h] at he'
    exact (Except.error.inj he').symm
  constructor
  · constructor
    · rwa [h]
    · rwa [h]
    · intro e' he'
      rwa [heq e' he']
  · intro a ha
    rw [h] at ha
    cases ha
  · intro e' he'
    rwa [heq e' he']

/-- A method that keeps the discipline, of which nothing more is wanted. -/
theorem Keeps.meets (h : Keeps d m p) : Meets d m p (fun _ _ => True) (fun _ => True) :=
  ⟨h, fun _ _ => trivial, fun _ _ => trivial⟩

/-- A method ends in one of two ways. -/
theorem Meets.cases (h : Meets d m p P E) :
    (∃ a q, m.from p = (.ok a, q) ∧ p ≤ q ∧ q ≤ d.length ∧ P a q) ∨
    (∃ e q, m.from p = (.error e, q) ∧ p ≤ q ∧ q ≤ d.length ∧ ¬e.IsFault ∧ E e) := by
  obtain ⟨⟨hle, hlength, hsound⟩, hreturns, hstops⟩ := h
  rcases hm : m.from p with ⟨⟨e⟩ | ⟨a⟩, q⟩ <;> rw [hm] at hle hlength hsound hreturns hstops
  · exact .inr ⟨e, q, rfl, hle, hlength, hsound e rfl, hstops e rfl⟩
  · exact .inl ⟨a, q, rfl, hle, hlength, hreturns a rfl⟩

/-- What a method returns is as wanted. -/
theorem Meets.of_from (h : Meets d m p P E) (hm : m.from p = (.ok a, q)) : P a q := by
  have hreturns := h.returns a
  rw [hm] at hreturns
  exact hreturns rfl

/-- What is wanted may be more than is needed. -/
theorem Meets.imp (h : Meets d m p P E) (hP : ∀ a q, p ≤ q → q ≤ d.length → P a q → P' a q)
    (hE : ∀ e, E e → E' e) : Meets d m p P' E' where
  toKeeps := h.toKeeps
  returns a ha := hP a _ h.le h.le_length (h.returns a ha)
  stops e he := hE e (h.stops e he)

/-- Returning at once leaves the cursor where it is. -/
theorem meets_pure (hp : p ≤ d.length) (ha : P a p) : Meets d (pure a) p P E :=
  .of_ok rfl le_rfl hp ha

/-- Breaking off leaves the cursor where it is. -/
theorem meets_throw (hp : p ≤ d.length) (hsound : ¬e.IsFault) (he : E e) :
    Meets d (throw e : Method α) p P E :=
  .of_error rfl le_rfl hp hsound he

/-- Rejecting the document leaves the cursor where it is. -/
theorem meets_reject {position : Nat} {v : Violation} (hp : p ≤ d.length)
    (he : E (.rejected ⟨.violation v, position⟩)) : Meets d (reject position v) p P E :=
  meets_throw hp id he

/-- One method after another. -/
theorem Meets.bind (hm : Meets d m p P E) (hE : ∀ e, E e → E' e)
    (hf : ∀ a q, p ≤ q → q ≤ d.length → P a q → Meets d (f a) q Q E') :
    Meets d (m >>= f) p Q E' := by
  rcases hm.cases with ⟨a, q, h, hpq, hq, ha⟩ | ⟨e, q, h, hpq, hq, hsound, he⟩
  · have hbind : (m >>= f).from p = (f a).from q := by rw [from_bind, h]
    rcases (hf a q hpq hq ha).cases with ⟨a', q', h', hle, hq', ha'⟩ | ⟨e, q', h', hle, hq', hs, he⟩
    · exact .of_ok (hbind.trans h') (hpq.trans hle) hq' ha'
    · exact .of_error (hbind.trans h') (hpq.trans hle) hq' hs he
  · exact .of_error (by rw [from_bind, h]) hpq hq hsound (hE e he)

/-- A method behind one of which it is known what it gives. -/
theorem meets_bind_of_from (h : m.from p = (.ok a, q)) (hpq : p ≤ q) (hf : Meets d (f a) q Q E) :
    Meets d (m >>= f) p Q E := by
  apply Meets.bind (P := fun a' q' => a' = a ∧ q' = q) (E := E)
  · exact .of_ok h hpq (hf.le.trans hf.le_length) ⟨rfl, rfl⟩
  · exact fun _ => id
  · rintro _ _ - - ⟨rfl, rfl⟩
    exact hf

/-- Asking where the cursor is. -/
theorem meets_bind_get {f : Nat → Method β} (hf : Meets d (f p) p Q E) :
    Meets d (get >>= f) p Q E :=
  meets_bind_of_from rfl le_rfl hf

/-- Putting the cursor ahead. -/
theorem meets_bind_set {f : Unit → Method β} (hpq : p ≤ q) (hf : Meets d (f ()) q Q E) :
    Meets d (set q >>= f) p Q E :=
  meets_bind_of_from rfl hpq hf

/-- Passing an octet. -/
theorem meets_bind_advance {f : Unit → Method β} (hf : Meets d (f ()) (p + 1) Q E) :
    Meets d (advance >>= f) p Q E :=
  meets_bind_of_from rfl (Nat.le_succ p) hf

/-- A loop keeps its invariant from iteration to iteration. Each iteration that goes on moves the
cursor, so that a budget above the number of octets ahead is not spent. -/
theorem meets_loop {body : σ → Method (σ ⊕ α)} {I : σ → Nat → Prop}
    (hbody : ∀ s p, p ≤ d.length → I s p →
      Meets d (body s) p (fun r q => p < q ∧ r.elim (I · q) (P · q)) E)
    {n : Nat} {s : σ} (hn : d.length - p < n) (hp : p ≤ d.length) (hI : I s p) :
    Meets d (loop body n s) p P E := by
  induction n generalizing s p with
  | zero => exact absurd hn (Nat.not_lt_zero _)
  | succ n ih =>
    apply (hbody s p hp hI).bind fun _ => id
    rintro (s' | a) q - hq ⟨hpq, hr⟩
    · exact ih (by omega) hq hr
    · exact meets_pure hq hr

/-! ## Offsets -/

/-- The octets from an offset on are what the machine sees there. -/
def cursorAt (d : List UInt8) (p : Nat) : Cursor :=
  ⟨p, d.drop p⟩

/-- The octet at an offset is the first of those from there on. -/
theorem drop_eq_cons (h : d[p]? = some b) : d.drop p = b :: d.drop (p + 1) := by
  obtain ⟨hp, rfl⟩ := List.getElem?_eq_some_iff.1 h
  exact List.drop_eq_getElem_cons hp

/-- Where there is an octet, the document goes on. -/
theorem lt_length (h : d[p]? = some b) : p < d.length :=
  (List.getElem?_eq_some_iff.1 h).1

/-- A cursor that has passed octets from an offset is behind them. -/
theorem eq_cursorAt_of_passes {bs : List UInt8} {c : Cursor} (h : (cursorAt d p).Passes bs c)
    (hp : p ≤ d.length) :
    c = cursorAt d c.position ∧ c.position = p + bs.length ∧ c.position ≤ d.length := by
  have hposition : c.position = p + bs.length := h.2
  have hrest : d.drop p = bs ++ c.rest := h.1
  have hlength := congrArg List.length hrest
  rw [List.length_drop, List.length_append] at hlength
  have hdrop : d.drop c.position = c.rest := by
    rw [hposition, ← List.drop_drop, hrest, List.drop_left]
  exact ⟨by rw [cursorAt, hdrop], hposition, by omega⟩

/-- What is skipped are the octets in front that pass the test. -/
theorem skipFrom_eq (d : List UInt8) (test : UInt8 → Bool) (p : Nat) :
    skipFrom d test p = p + ((d.drop p).takeWhile test).length := by
  fun_induction skipFrom d test p with
  | case1 p hp htest ih =>
    rw [ih, List.drop_eq_getElem_cons hp, List.takeWhile_cons, if_pos htest, List.length_cons]
    omega
  | case2 p hp htest =>
    rw [List.drop_eq_getElem_cons hp, List.takeWhile_cons, if_neg htest]
    rfl
  | case3 p hp =>
    rw [List.drop_eq_nil_of_le (Nat.le_of_not_lt hp)]
    rfl

/-- Behind what is skipped is what is left without it. -/
theorem drop_skipFrom (d : List UInt8) (test : UInt8 → Bool) (p : Nat) :
    d.drop (skipFrom d test p) = (d.drop p).dropWhile test := by
  have h := congrArg (List.drop ((d.drop p).takeWhile test).length)
    (List.takeWhile_append_dropWhile (p := test) (l := d.drop p))
  rw [List.drop_left] at h
  rw [skipFrom_eq, ← List.drop_drop, ← h]

/-- Skipping never goes back. -/
theorem le_skipFrom (d : List UInt8) (test : UInt8 → Bool) (p : Nat) : p ≤ skipFrom d test p := by
  rw [skipFrom_eq]
  exact Nat.le_add_right _ _

/-- Skipping stops at the end. -/
theorem skipFrom_le_length (test : UInt8 → Bool) (hp : p ≤ d.length) :
    skipFrom d test p ≤ d.length := by
  have h := (List.takeWhile_prefix test (l := d.drop p)).length_le
  rw [List.length_drop] at h
  rw [skipFrom_eq]
  omega

/-- Skipping stops at an octet that does not pass the test. -/
theorem test_skipFrom {test : UInt8 → Bool} (h : d[skipFrom d test p]? = some b) :
    test b = false := by
  have hhead := List.head?_dropWhile_not test (d.drop p)
  rw [← drop_skipFrom, drop_eq_cons h] at hhead
  exact hhead

/-- The octets that are skipped. -/
theorem slice_skipFrom (d : List UInt8) (test : UInt8 → Bool) (p : Nat) :
    slice d p (skipFrom d test p) = (d.drop p).takeWhile test := by
  rw [slice, skipFrom_eq, Nat.add_sub_cancel_left]
  exact List.prefix_iff_eq_take.1 (List.takeWhile_prefix test) |>.symm

/-- Blanks are skipped as the machine skips them. -/
theorem skipBlanks_cursorAt (d : List UInt8) (p : Nat) :
    (cursorAt d p).skipBlanks = cursorAt d (skipFrom d isBlank p) := by
  rw [cursorAt, cursorAt, skipFrom_eq, ← skipFrom_eq, drop_skipFrom]
  simp only [Cursor.skipBlanks, skipFrom_eq]

/-- There is nothing more to skip behind blanks that were skipped. -/
theorem skipFrom_skipFrom (d : List UInt8) (test : UInt8 → Bool) (p : Nat) :
    skipFrom d test (skipFrom d test p) = skipFrom d test p := by
  rw [skipFrom]
  split
  · rename_i hp
    rw [if_neg]
    rw [test_skipFrom (List.getElem?_eq_getElem hp)]
    exact Bool.false_ne_true
  · rfl

/-! ## Looking at octets -/

/-- An octet that is there is read. -/
theorem from_octetAt {i : Nat} (h : d[i]? = some b) : (octetAt d i).from p = (.ok b, p) := by
  rw [octetAt, h]
  rfl

/-- Looking tells what stands at an offset, and does not move the cursor. -/
theorem from_lookAt (d : List UInt8) (i p : Nat) : (lookAt d i).from p = (.ok d[i]?, p) := by
  unfold lookAt
  split
  · rename_i hi
    rw [map_eq_pure_bind, from_bind, from_octetAt (List.getElem?_eq_getElem hi),
      List.getElem?_eq_getElem hi]
    rfl
  · rename_i hi
    rw [List.getElem?_eq_none (Nat.le_of_not_lt hi)]
    rfl

/-- The next octet is the first that is no blank, to which the cursor moves. -/
theorem from_peek (d : List UInt8) (p : Nat) :
    (peek d).from p = (.ok d[skipFrom d isBlank p]?, skipFrom d isBlank p) :=
  from_lookAt d _ _

/-- What is found is what the machine finds. -/
theorem from_found (d : List UInt8) (p : Nat) :
    (found d).from p = (.ok (cursorAt d p).found, p) := by
  show (lookAt d p >>= _).from p = _
  rw [from_bind, from_lookAt]
  cases h : d[p]? with
  | none =>
    rw [cursorAt, List.drop_eq_nil_of_le (List.getElem?_eq_none_iff.1 h)]
    rfl
  | some b =>
    rw [cursorAt, drop_eq_cons h]
    rfl

/-- Rejecting the document for what is found leaves the cursor where it is. -/
theorem meets_reject_found {v : Found → Violation} (hp : p ≤ d.length)
    (he : E (.rejected ⟨.violation (v (cursorAt d p).found), p⟩)) :
    Meets d (do reject (← get) (v (← found d))) p P E := by
  apply meets_bind_get
  apply meets_bind_of_from (from_found d p) le_rfl
  exact meets_reject hp he

/-! ## Rejections -/

/-- The stop is the rejection in which `x` ends. -/
def Stop.IsRejectionOf (x : Except Rejection γ) (e : Stop) : Prop :=
  ∃ r, e = .rejected r ∧ x = .error r

/-- A rejection may be passed on. -/
theorem Stop.IsRejectionOf.imp {x : Except Rejection γ} {y : Except Rejection δ}
    (h : e.IsRejectionOf x) (hxy : ∀ r, x = .error r → y = .error r) : e.IsRejectionOf y := by
  obtain ⟨r, he, hx⟩ := h
  exact ⟨r, he, hxy r hx⟩

/-- One method after another, where a rejection by the first is one of the whole. -/
theorem Meets.andThen {x : Except Rejection γ} {y : Except Rejection δ}
    (hm : Meets d m p P (·.IsRejectionOf x)) (hxy : ∀ r, x = .error r → y = .error r)
    (hf : ∀ a q, p ≤ q → q ≤ d.length → P a q → Meets d (f a) q Q (·.IsRejectionOf y)) :
    Meets d (m >>= f) p Q (·.IsRejectionOf y) :=
  hm.bind (fun _ he => he.imp hxy) hf

end StrictJson.Document.Descent
