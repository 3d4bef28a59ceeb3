import StrictJson.Proofs.Document.DepthLimit
import StrictJson.Proofs.Document.Descent.Values

/-!
# Cursor discipline

Whatever the document is, no method takes the cursor back or behind the end, no method reads where
there is no octet, and no budget is spent: `cursor_discipline`. For a method that is called where an
octet stands, the offset must have one; all others keep the discipline from everywhere. That the
methods read documents as the document machine does carries the discipline over to it. The machine
goes from place to place with fewer octets ahead each time, and has no more containers open than
octets behind it.
-/

namespace StrictJson.Document

open Cursor

variable {o : ParseOptions} {d : List UInt8} {s s' : State} {c c' : Cursor} {x y : Place} {p : Nat}
  {bs : List UInt8}

/-! ## The machine -/

variable [Platform]

/-- A move opens one container at most, and takes an octet for it. -/
theorem Moves.level_le_add (h : Moves o s bs s') : s'.level ≤ s.level + bs.length := by
  induction h with
  | scalar => exact (level_deliver _ _).le.trans (Nat.le_add_right _ _)
  | openArray | openObject => exact le_rfl
  | firstItem _ ih => exact ih
  | firstKey _ ih => exact ih
  | closeEmptyArray | closeArray | closeEmptyObject | closeObject =>
    rw [level_deliver]
    exact Nat.le_succ_of_le (Nat.le_succ_of_le le_rfl)
  | nextItem | key | colon | nextMember => exact Nat.le_add_right _ _

/-- No more containers are open than octets are behind the cursor. -/
theorem Reaches.level_le_position (h : Reaches o x y) (hx : x.1.level ≤ x.2.position) :
    y.1.level ≤ y.2.position := by
  induction h with
  | refl => exact hx
  | tail _ hgoes ih =>
    obtain ⟨ws, bs, -, hmoves, hpasses⟩ := hgoes.moves
    have hlevel := hmoves.level_le_add
    have hposition := hpasses.2
    rw [List.length_append] at hposition
    omega

namespace Descent

/-- From any state and offset, a step of the machine that goes on does so from an offset farther on,
and not behind the end. -/
theorem lt_position_of_step (hp : p ≤ d.length)
    (h : step o s (cursorAt d p).skipBlanks = .ok (.next s' c')) :
    c' = cursorAt d c'.position ∧ p < c'.position ∧ c'.position ≤ d.length := by
  obtain ⟨ws, bs, -, -, hpasses⟩ := Goes.moves (x := (s, cursorAt d p)) (y := (s', c')) h
  obtain ⟨hc, hposition, hle⟩ := eq_cursorAt_of_passes hpasses hp
  have hlt := (length_step_lt h).trans_le (cursorAt d p).length_skipBlanks_le
  simp only at hc hposition hle
  rw [hc] at hlt
  simp only [cursorAt, List.length_drop] at hlt
  exact ⟨hc, by omega, hle⟩

/-! ## The methods -/

/-- The scanning methods and the bodies of their loops, and the offsets at which each may be called.
A method that reads a string or a number takes its first octet for granted, whatever it is: called
at the end of the document, it would go behind it. One that reads values has a budget of more steps
than octets are ahead; one that reads a container makes up for a step with the bracket. -/
inductive MayCall (d : List UInt8) (o : ParseOptions) : {α : Type} → Method α → Nat → Prop where
  | skipBlanks {p : Nat} : p ≤ d.length → MayCall d o (skipBlanks d) p
  | peek {p : Nat} : p ≤ d.length → MayCall d o (peek d) p
  | found {p : Nat} : p ≤ d.length → MayCall d o (found d) p
  | expect {p : Nat} {b : UInt8} {missing : Found → Nat → Stop} :
    (∀ found q, ¬(missing found q).IsFault) → p ≤ d.length → MayCall d o (expect d b missing) p
  | word {p : Nat} {w : Word} {t : Tree} : p ≤ d.length → MayCall d o (readWord d w t) p
  | escape {p : Nat} : p ≤ d.length → MayCall d o (readEscape d) p
  | octets {p : Nat} : p < d.length → MayCall d o (readOctets d) p
  | part {p : Nat} {out : List UInt8} : p ≤ d.length → MayCall d o (stringStep d out) p
  | text {p : Nat} : p < d.length → MayCall d o (readText d) p
  | number {p : Nat} : p < d.length → MayCall d o (readNumber d) p
  | enter {p depth : Nat} : p ≤ d.length → MayCall d o (enter o depth) p
  | key {p : Nat} : p ≤ d.length → MayCall d o (readKey d) p
  | value {p n depth : Nat} : p ≤ d.length → d.length - p < n →
    MayCall d o (readValue d o n depth) p
  | item {p n depth : Nat} {items : List Tree} : p ≤ d.length → d.length - p < n →
    MayCall d o (arrayStep d (readValue d o n (depth + 1)) items) p
  | array {p n depth : Nat} : p ≤ d.length → d.length - p ≤ n →
    MayCall d o (readArray d o (readValue d o n) (depth + 1)) p
  | member {p n depth : Nat} {members : List (String × Tree)} : p ≤ d.length →
    d.length - p < n → MayCall d o (objectStep d (readValue d o n (depth + 1)) members) p
  | object {p n depth : Nat} : p ≤ d.length → d.length - p ≤ n →
    MayCall d o (readObject d o (readValue d o n) (depth + 1)) p
  | document {p : Nat} : p ≤ d.length → MayCall d o (readDocument d o) p

/-- Open containers, as many as wanted. -/
def containers (depth : Nat) : List Frame :=
  List.replicate depth (.array [])

/-- Values are read inside of any number of containers. -/
theorem readValue_mirrors_of_le (o : ParseOptions) (depth : Nat) {n : Nat} (hp : p ≤ d.length)
    (hn : d.length - p < n) :
    Mirrors d o (readValue d o n depth) p (.value (containers depth))
      (deliver · (containers depth)) :=
  readValue_mirrors d o n depth p _ hp hn (List.length_replicate ..)

/-- Inside of a container, values are read as inside of one more. -/
theorem readsValues_containers (d : List UInt8) (o : ParseOptions) (n depth : Nat) :
    ReadsValues d o n ((containers depth).length + 1) (readValue d o n (depth + 1)) := by
  rw [containers, List.length_replicate]
  exact readValue_mirrors d o n (depth + 1)

/-- A method keeps the discipline wherever it may be called. -/
theorem MayCall.keeps {α : Type} {m : Method α} (h : MayCall d o m p) : Keeps d m p := by
  cases h with
  | skipBlanks hp => exact keeps_of_ok rfl (le_skipFrom d _ p) (skipFrom_le_length _ hp)
  | peek hp => exact keeps_of_ok (from_peek d p) (le_skipFrom d _ p) (skipFrom_le_length _ hp)
  | found hp => exact keeps_of_ok (from_found d p) le_rfl hp
  | expect hmissing hp => exact (expect_meets hp hmissing).toKeeps
  | word hp =>
    apply Meets.toKeeps (P := fun _ _ => True) (E := fun _ => True)
    apply (matchOctets_meets _ _ hp).toKeeps.meets.bind fun _ => id
    exact fun _ q _ hq _ => meets_pure hq trivial
  | escape hp => exact (readEscape_meets hp).toKeeps
  | octets hp => exact (readOctets_meets hp).toKeeps
  | part hp => exact (stringStep_meets hp rfl).toKeeps
  | text hp => exact (readText_meets hp).toKeeps
  | number hp => exact (readNumber_meets hp).toKeeps
  | enter hp => exact (enter_meets o _ hp).toKeeps
  | key hp => exact (readKey_mirrors o [] [] hp).toKeeps
  | @value _ _ depth hp hn => exact (readValue_mirrors_of_le o depth hp hn).toKeeps
  | @item _ n depth items hp hn =>
    exact (arrayStep_mirrors items (readsValues_containers d o n depth) hp hn).toKeeps
  | @array _ n depth hp hn =>
    apply open_keeps o _ _ hp
    intro q hpq hq
    exact (readItems_mirrors (readsValues_containers d o n depth) hq (by omega)).toKeeps
  | @member _ n depth members hp hn =>
    exact (objectStep_mirrors members (readsValues_containers d o n depth) hp hn).toKeeps
  | @object _ n depth hp hn =>
    apply open_keeps o _ _ hp
    intro q hpq hq
    exact (readMembers_mirrors (readsValues_containers d o n depth) hq (by omega)).toKeeps
  | document hp => exact (readDocument_meets d o hp).toKeeps

/-- The discipline of the cursor in a document under given options. -/
structure CursorDiscipline (d : List UInt8) (o : ParseOptions) : Prop where
  /-- A scanning method leaves the cursor between where it was and the end, whether it returns or
  breaks off. It reads no octet where there is none, and spends no budget. -/
  keeps : ∀ {α : Type} (m : Method α) (p : Nat), MayCall d o m p → Keeps d m p
  /-- Digits are skipped up to the end at most. -/
  digits : ∀ p, p ≤ d.length → p ≤ skipFrom d isDigit p ∧ skipFrom d isDigit p ≤ d.length
  /-- A value that is read has taken an octet behind the blanks in front. -/
  value : ∀ p n depth t q, p ≤ d.length → d.length - p < n →
    (readValue d o n depth).from p = (.ok t, q) → skipFrom d isBlank p < q
  /-- An item moves the cursor. -/
  item : ∀ p n depth items r q, p ≤ d.length → d.length - p < n →
    (arrayStep d (readValue d o n (depth + 1)) items).from p = (.ok r, q) → p < q
  /-- A member moves the cursor. -/
  member : ∀ p n depth members r q, p ≤ d.length → d.length - p < n →
    (objectStep d (readValue d o n (depth + 1)) members).from p = (.ok r, q) → p < q
  /-- A part of a string moves the cursor. -/
  part : ∀ p out r q, p ≤ d.length → (stringStep d out).from p = (.ok r, q) → p < q
  /-- The methods read the document as the machine does, with the budget that they have. -/
  document : ((readDocument d o).from 0).1 = (parseOctets o d).mapError .rejected
  /-- A document that is read is read up to its end. -/
  ends : ∀ t q, (readDocument d o).from 0 = (.ok t, q) → q = d.length
  /-- Whatever is open, a step of the machine that goes on leaves fewer octets ahead. -/
  step : ∀ s p s' c', p ≤ d.length → step o s (cursorAt d p).skipBlanks = .ok (.next s' c') →
    ∃ q, c' = cursorAt d q ∧ p < q ∧ q ≤ d.length
  /-- No more containers are open than the options allow, and than the document has octets. -/
  level : ∀ y, Reaches o (start d) y → y.1.level ≤ min o.maxDepth d.length

/-- The cursor of a document is disciplined, whatever the document is. -/
theorem cursor_discipline (d : List UInt8) (o : ParseOptions) : CursorDiscipline d o where
  keeps _ _ h := h.keeps
  digits p hp := ⟨le_skipFrom d isDigit p, skipFrom_le_length isDigit hp⟩
  value p n depth t q hp hn h := ((readValue_mirrors_of_le o depth hp hn).of_from h).1
  item p n depth items r q hp hn h := by
    have hmirrors := arrayStep_mirrors items (readsValues_containers d o n depth) hp hn
    exact (le_skipFrom d isBlank p).trans_lt (hmirrors.of_from h).1
  member p n depth members r q hp hn h := by
    have hmirrors := objectStep_mirrors members (readsValues_containers d o n depth) hp hn
    exact (le_skipFrom d isBlank p).trans_lt (hmirrors.of_from h).1
  part p out r q hp h := ((stringStep_meets hp rfl).of_from h).1
  document := by
    rcases (readDocument_meets d o (Nat.zero_le _)).cases with
      ⟨t, q, hfrom, -, -, -, hrun⟩ | ⟨e, q, hfrom, -, -, -, r, rfl, hrun⟩
    · rw [hfrom, parseOctets, show run o (.value []) ⟨0, d⟩ = .ok t from hrun]
      rfl
    · rw [hfrom, parseOctets, show run o (.value []) ⟨0, d⟩ = .error r from hrun]
      rfl
  ends t q h := ((readDocument_meets d o (Nat.zero_le _)).of_from h).1
  step s p s' c' hp h := ⟨c'.position, lt_position_of_step hp h⟩
  level y h := by
    apply le_min
    · exact h.level_le (Nat.zero_le _)
    · obtain ⟨bs, hpasses⟩ := h.passes
      have hlength := hpasses.length_eq
      have hposition := hpasses.2
      have hlevel := h.level_le_position (Nat.zero_le _)
      simp only [start, Nat.zero_add] at hlength hposition
      omega

end Descent

end StrictJson.Document
