/-
Decoding into a tape that exists, one step at a time.

An intake holds the bytes that are left, the first error and the tape that is
to receive the result. Once there is an error, nothing more is read, but the
steps go on, with zeros for what they would have read. Every slice, byte and
table entry is checked and faults if it does not exist, and every table and
text that is made is noted with the bytes that were left for it.

An intake carries out a decoder if, seen as bytes or an error, it moves as the
decoder does (`Intake.Carries`). This makes decoding step by step the same as
`decode`, without faults and with room for all that is made
(`Intake.receive_eq`).
-/
import ScalarField.Proofs.Tape.Obtained

namespace ScalarField

namespace Tape

/-- A table or text that was made: `items` of `least` bytes or more each, when
`room` bytes were left for them. -/
structure Made where
  items : Nat
  least : Nat
  room : Nat

/-- Decoding under way. -/
structure Intake where
  rest : Bytes
  error : Option TapeError := none
  made : List Made := []
  receiver : Tape

namespace Intake

/-! ## Steps -/

/-- A step of decoding. -/
abbrev Step := StateT Intake (Except Fault)

/-- The bytes from `lo` up to `hi`. -/
def slice (s : Bytes) (lo hi : Nat) : Except Fault Bytes :=
  if lo ≤ hi ∧ hi ≤ s.length then .ok ((s.take hi).drop lo) else .error .range

/-- The next `n` bytes, if there are so many and there has been no error. -/
def take (n : Nat) : Step (Option Bytes) := fun m =>
  if m.error.isSome then .ok (none, m)
  else if m.rest.length < n then .ok (none, { m with error := some (.corrupt .truncated) })
  else do
    let b ← slice m.rest 0 n
    let rest ← slice m.rest n m.rest.length
    return (some b, { m with rest })

/-- The number whose `n` bytes start at `i`, the lowest first. -/
def number (b : Bytes) : Nat → Nat → Except Fault Nat
  | _, 0 => .ok 0
  | i, n + 1 => do
    let low ← lookup b.toArray i
    let high ← number b (i + 1) n
    return low.toNat + 256 * high

/-- The next number of `n` bytes, or zero. -/
def word (n : Nat) : Step Nat := do
  match ← take n with
  | some b => number b 0 n
  | none => return 0

/-- The next count, for items of `least` bytes or more. -/
def count (least : Nat) : Step Nat := do
  let n ← word 4
  modify fun m =>
    if m.error.isNone ∧ m.rest.length / least < n then
      { m with error := some (.corrupt (.count n)) }
    else m
  return n

/-- Notes what is made. -/
def make (items least room : Nat) : Step Unit :=
  modify fun m => { m with made := ⟨items, least, room⟩ :: m.made }

/-- A text of the next `n` bytes. -/
def text (n : Nat) : Step Bytes := do
  let room := (← get).rest.length
  let s := (← take n).getD []
  make s.length 1 room
  return s

def name : Step Bytes := do
  let n ← word 2
  text n

def instr : Step Instr := do
  let code ← word 1
  let left ← word 4
  let right ← word 4
  let imm ← word 8
  let var ← word 4
  return { code := UInt8.ofNat code, left, right, imm := .ofBits imm, var }

variable {α : Type}

/-- A table that grows by `n` more items behind `done`, which is in reverse. -/
def grow (item : Step α) (least room : Nat) (done : List α) : Nat → Step (List α)
  | 0 => return done.reverse
  | n + 1 => do
    if (← get).error.isSome then return done.reverse
    let x ← item
    make (done.length + 1) least room
    grow item least room (x :: done) n

/-- A table with its `n` entries from `slot` on replaced. -/
def fill (item : Step α) (table : Array α) (slot : Nat) : Nat → Step (List α)
  | 0 => return table.toList
  | n + 1 => do
    if (← get).error.isSome then return table.toList
    let x ← item
    let table ← update table slot x
    fill item table (slot + 1) n

/-- A table that is made at once and then filled. -/
def preset (item : Step α) (blank : α) (least room n : Nat) : Step (List α) := do
  if (← get).error.isSome then return []
  make n least room
  fill item (Array.replicate n blank) 0 n

/-- Items of `least` bytes or more with their count in front. -/
def counted (least : Nat) (items : Nat → Nat → Step (List α)) : Step (List α) := do
  let n ← count least
  let room := (← get).rest.length
  items room n

/-- What is wrong with the version. -/
def edition : Step (Option TapeError) := do
  let v := UInt8.ofNat (← word 1)
  if v = version then return none
  return some ((← get).error.getD (.corrupt (.version v)))

/-- What is wrong with the bytes in front of the tape itself. -/
def header : Step (Option TapeError) := do
  if (← take magic.length).getD [] ≠ magic then return some (.corrupt .magic)
  edition

/-- A tape, not checked yet. -/
def body : Step Tape := do
  let vars ← counted 2 fun room n => grow name 2 room [] n
  let instrs ← counted instrBytes (preset instr { code := 0 } instrBytes)
  let outputs ← counted 4 (preset (word 4) 0 4)
  return ⟨instrs.toArray, outputs.toArray, vars.toArray⟩

/-- Hands a tape to the receiver if all has gone well. -/
def accept (t : Tape) : Step (Except TapeError Unit) := fun m =>
  match m.error with
  | some e => .ok (.error e, m)
  | none =>
    if m.rest.length ≠ 0 then .ok (.error (.corrupt (.trailing m.rest.length)), m)
    else
      match t.validate with
      | .error e => .ok (.error e, m)
      | .ok () => .ok (.ok (), { m with receiver := t })

/-- Decodes bytes into a tape. -/
def receive (t : Tape) (s : Bytes) : Except Fault (Except TapeError Unit × Intake) :=
  (do
    match ← header with
    | some e => return .error e
    | none => accept (← body) : Step (Except TapeError Unit)) { rest := s, receiver := t }

/-! ## Carrying out a decoder -/

/-- The bytes that are left, or the error. -/
def view (m : Intake) : Except TapeError Bytes :=
  match m.error with
  | some e => .error e
  | none => .ok m.rest

/-- Of `size` bytes no more are left, and all that was made had room in them. -/
structure Within (size : Nat) (m : Intake) : Prop where
  rest : m.rest.length ≤ size
  made : ∀ a ∈ m.made, a.items * a.least ≤ a.room ∧ a.room ≤ size

/-- A step never faults, makes nothing that there is no room for, leaves the
receiver alone, and moves as a decoder does. -/
def Carries (size : Nat) (r : Step α) (d : Decoder α) : Prop :=
  ∀ m : Intake, m.Within size → ∃ x m', r m = .ok (x, m') ∧ m'.Within size ∧
    m'.receiver = m.receiver ∧ m.view.bind d = m'.view.map fun rest => (x, rest)

variable {β : Type} {size : Nat} {r : Step α} {d : Decoder α} {m m' : Intake} {x : α}

theorem bind_of_ok {k : α → Step β} (h : r m = .ok (x, m')) : (r >>= k) m = k x m' := by
  show Except.bind (r m) (fun p => k p.1 p.2) = _
  rw [h]
  rfl

theorem get_eq : (get : Step Intake) m = .ok (m, m) := rfl

theorem Carries.pure (x : α) : Carries size (Pure.pure x) (Pure.pure x) := by
  intro m hm
  refine ⟨x, m, rfl, hm, rfl, ?_⟩
  cases m.view <;> rfl

theorem bind_bind (v : Except TapeError Bytes) (d : Decoder α) (l : α → Decoder β) :
    v.bind (d >>= l) = (v.bind d).bind fun p => l p.1 p.2 := by
  cases v <;> rfl

theorem Carries.bind {k : α → Step β} {l : α → Decoder β} (hr : Carries size r d)
    (hk : ∀ x, Carries size (k x) (l x)) : Carries size (r >>= k) (d >>= l) := by
  intro m hm
  obtain ⟨x, m₁, h₁, hw₁, hrec₁, hv₁⟩ := hr m hm
  obtain ⟨y, m₂, h₂, hw₂, hrec₂, hv₂⟩ := hk x m₁ hw₁
  refine ⟨y, m₂, by rw [bind_of_ok h₁, h₂], hw₂, hrec₂.trans hrec₁, ?_⟩
  rw [bind_bind, hv₁, ← hv₂]
  cases m₁.view <;> rfl

theorem view_of_error {e : TapeError} (h : m.error = some e) : m.view = .error e := by
  rw [view, h]

theorem view_of_none (h : m.error = none) : m.view = .ok m.rest := by
  rw [view, h]

theorem view_made (l : List Made) : ({ m with made := l } : Intake).view = m.view := rfl

/-- Taking bytes gives the bytes, or there is an error, the one that decoding
ends with. -/
theorem take_cases (n : Nat) (hm : m.Within size) :
    (∃ b rest, m.error = none ∧ m.rest = b ++ rest ∧ b.length = n ∧
      take n m = .ok (some b, { m with rest })) ∨
    ∃ e m', take n m = .ok (none, m') ∧ m'.Within size ∧ m'.receiver = m.receiver ∧
      m'.error = some e ∧ m.view.bind (Decoder.take n) = .error e := by
  cases herror : m.error with
  | some e =>
    refine .inr ⟨e, m, by simp [take, herror], hm, rfl, herror, ?_⟩
    rw [view_of_error herror]
    rfl
  | none =>
    by_cases hlen : m.rest.length < n
    · refine .inr ⟨.corrupt .truncated, { m with error := some (.corrupt .truncated) },
        by simp [take, herror, hlen], ⟨hm.rest, hm.made⟩, rfl, rfl, ?_⟩
      rw [view_of_none herror]
      exact Decoder.take_of_short hlen
    · refine .inl ⟨m.rest.take n, m.rest.drop n, rfl, (List.take_append_drop n _).symm,
        by simp; omega, ?_⟩
      have hfront : slice m.rest 0 n = .ok (m.rest.take n) := by simp [slice]; omega
      have hback : slice m.rest n m.rest.length = .ok (m.rest.drop n) := by simp [slice]; omega
      simp [take, herror, hlen, hfront, hback]
      rfl

theorem Within.drop {b rest : Bytes} (hm : m.Within size) (h : m.rest = b ++ rest) :
    ({ m with rest } : Intake).Within size := by
  have hlen := hm.rest
  rw [h, List.length_append] at hlen
  exact ⟨Nat.le_trans (Nat.le_add_left _ _) hlen, hm.made⟩

theorem Within.make {items least room : Nat} (hm : m.Within size) (hroom : items * least ≤ room)
    (hsize : room ≤ size) :
    ({ m with made := ⟨items, least, room⟩ :: m.made } : Intake).Within size :=
  ⟨hm.rest, List.forall_mem_cons.2 ⟨⟨hroom, hsize⟩, hm.made⟩⟩

theorem number_eq (front b : Bytes) :
    number (front ++ b) front.length b.length = .ok (Bytes.ofLittleEndian b) := by
  induction b generalizing front with
  | nil => rfl
  | cons c b ih =>
    have hlow : lookup (front ++ c :: b).toArray front.length = .ok c := by simp [lookup]
    have hhigh := ih (front ++ [c])
    rw [List.append_assoc, List.singleton_append, List.length_append] at hhigh
    simp only [List.length_cons, number, hlow]
    show Except.bind _ _ = _
    rw [show front.length + 1 = front.length + [c].length from rfl, hhigh]
    rfl

theorem word_of_some {n : Nat} {b : Bytes} (htake : take n m = .ok (some b, m'))
    (hlen : b.length = n) : word n m = .ok (Bytes.ofLittleEndian b, m') := by
  have hnumber := number_eq [] b
  rw [List.nil_append, List.length_nil, hlen] at hnumber
  rw [word, bind_of_ok htake]
  show Except.bind (number b 0 n) _ = _
  rw [hnumber]
  rfl

theorem word_of_none {n : Nat} (htake : take n m = .ok (none, m')) : word n m = .ok (0, m') := by
  rw [word, bind_of_ok htake]
  rfl

theorem word_carries (n : Nat) : Carries size (word n) (Decoder.word n) := by
  intro m hm
  rcases take_cases n hm with ⟨b, rest, hnone, hrest, hlen, htake⟩ |
    ⟨e, m', htake, hw, hrec, herror, hview⟩
  · refine ⟨_, { m with rest }, word_of_some htake hlen, hm.drop hrest, rfl, ?_⟩
    rw [view_of_none hnone, view_of_none (m := { m with rest }) hnone]
    exact Decoder.bind_eq_ok.2 ⟨b, rest, Decoder.take_eq_ok.2 ⟨hlen, hrest⟩, rfl⟩
  · refine ⟨0, m', word_of_none htake, hw, hrec, ?_⟩
    rw [Decoder.word, bind_bind, hview, view_of_error herror]
    rfl

theorem text_carries (n : Nat) : Carries size (text n) (Decoder.take n) := by
  intro m hm
  rcases take_cases n hm with ⟨b, rest, hnone, hrest, hlen, htake⟩ |
    ⟨e, m', htake, hw, hrec, herror, hview⟩
  · refine ⟨b, { m with rest, made := ⟨b.length, 1, m.rest.length⟩ :: m.made }, ?_, ?_, rfl, ?_⟩
    · rw [text, bind_of_ok get_eq, bind_of_ok htake]
      rfl
    · refine (hm.drop hrest).make ?_ hm.rest
      rw [Nat.mul_one, hrest, List.length_append]
      exact Nat.le_add_right _ _
    · rw [view_of_none hnone, view_made (m := { m with rest }),
        view_of_none (m := { m with rest }) hnone]
      exact Decoder.take_eq_ok.2 ⟨hlen, hrest⟩
  · refine ⟨[], { m' with made := ⟨0, 1, m.rest.length⟩ :: m'.made }, ?_, ?_, hrec, ?_⟩
    · rw [text, bind_of_ok get_eq, bind_of_ok htake]
      rfl
    · exact hw.make (by simp) hm.rest
    · rw [hview, view_made, view_of_error herror]
      rfl

theorem name_carries : Carries size name Decoder.name :=
  (word_carries 2).bind text_carries

theorem instr_carries : Carries size instr Decoder.instr :=
  (word_carries 1).bind fun _ => (word_carries 4).bind fun _ => (word_carries 4).bind fun _ =>
    (word_carries 8).bind fun _ => (word_carries 4).bind fun _ => .pure _

theorem count_carries (least : Nat) : Carries size (count least) (Decoder.count least) := by
  refine (word_carries 4).bind fun n m hm => ?_
  show ∃ x m', Except.ok (n, if m.error.isNone ∧ m.rest.length / least < n then
      { m with error := some (.corrupt (.count n)) } else m) = Except.ok (x, m') ∧ _ ∧ _ ∧ _
  cases herror : m.error with
  | some e =>
    refine ⟨n, m, by simp, hm, rfl, ?_⟩
    rw [view_of_error herror]
    rfl
  | none =>
    rw [view_of_none herror]
    show ∃ x m', _ ∧ _ ∧ _ ∧ (if m.rest.length / least < n then throw (.corrupt (.count n))
      else pure n : Decoder Nat) m.rest = _
    by_cases hcount : m.rest.length / least < n
    · rw [if_pos hcount]
      exact ⟨n, { m with error := some (.corrupt (.count n)) }, by simp [hcount],
        ⟨hm.rest, hm.made⟩, rfl, rfl⟩
    · rw [if_neg hcount]
      refine ⟨n, m, by simp [hcount], hm, rfl, ?_⟩
      rw [view_of_none herror]
      rfl

/-! ## Tables -/

theorem make_carries {items least room : Nat} (hroom : items * least ≤ room)
    (hsize : room ≤ size) : Carries size (make items least room) (Pure.pure ()) := by
  intro m hm
  refine ⟨(), { m with made := ⟨items, least, room⟩ :: m.made }, rfl, hm.make hroom hsize, rfl, ?_⟩
  show m.view.bind _ = m.view.map _
  cases m.view <;> rfl

/-- A step that does nothing once there is an error. -/
def Stops (r : Step α) : Prop := ∀ m : Intake, m.error.isSome → ∃ x, r m = .ok (x, m)

/-- Before a step that goes on without errors only, there may be one. -/
theorem Carries.unless {y : α} (hr : Carries size r d) :
    Carries size (do if (← get).error.isSome then return y else r) d := by
  intro m hm
  rw [bind_of_ok get_eq]
  cases herror : m.error with
  | some e =>
    refine ⟨y, m, by simp; rfl, hm, rfl, ?_⟩
    rw [view_of_error herror]
    rfl
  | none =>
    have hgo : (if (none : Option TapeError).isSome = true then (Pure.pure y : Step α) else r) =
        r := rfl
    simpa only [herror, hgo] using hr m hm

theorem Stops.unless {y : α} : Stops (do if (← get).error.isSome then return y else r) := by
  intro m herror
  refine ⟨y, ?_⟩
  rw [bind_of_ok get_eq, if_pos herror]
  rfl

theorem grow_stops (item : Step α) (least room : Nat) (done : List α) (n : Nat) :
    Stops (grow item least room done n) := by
  cases n with
  | zero => exact fun m _ => ⟨done.reverse, rfl⟩
  | succ n => exact Stops.unless

theorem grow_carries (hr : Carries size r d) {least room : Nat} (hsize : room ≤ size) {n : Nat} :
    ∀ {done : List α}, (done.length + n) * least ≤ room →
      Carries size (grow r least room done n) (Decoder.repeated d done n) := by
  induction n with
  | zero => exact fun _ => .pure _
  | succ n ih =>
    intro done hroom
    refine Carries.unless (hr.bind fun x => ?_)
    have hnow : (done.length + 1) * least ≤ room :=
      Nat.le_trans (Nat.mul_le_mul_right least (by omega)) hroom
    have hlater : ((x :: done).length + n) * least ≤ room := by
      rwa [List.length_cons, Nat.add_right_comm]
    exact (make_carries hnow hsize).bind fun _ => ih hlater

theorem fill_carries (hr : Carries size r d) {blank : α} {n : Nat} :
    ∀ {table : Array α} {done : List α}, table.toList = done.reverse ++ List.replicate n blank →
      Carries size (fill r table done.length n) (Decoder.repeated d done n) := by
  induction n with
  | zero =>
    intro table done htable
    rw [List.replicate_zero, List.append_nil] at htable
    rw [fill, htable]
    exact .pure _
  | succ n ih =>
    intro table done htable
    refine Carries.unless (hr.bind fun x => ?_)
    have hsize : table.size = done.length + (n + 1) := by
      rw [← Array.length_toList, htable]
      simp
    have hupdate : update table done.length x = .ok (table.setIfInBounds done.length x) := by
      rw [update, if_pos (by omega)]
    have htable' : (table.setIfInBounds done.length x).toList =
        (x :: done).reverse ++ List.replicate n blank := by
      simp [htable, List.replicate_succ]
    intro m hm
    obtain ⟨y, m', hy, hrest⟩ := ih htable' m hm
    refine ⟨y, m', ?_, hrest⟩
    show Except.bind (Except.bind (update table done.length x) _) _ = _
    rw [hupdate]
    exact hy

theorem preset_carries (hr : Carries size r d) {blank : α} {least room n : Nat}
    (hroom : n * least ≤ room) (hsize : room ≤ size) :
    Carries size (preset r blank least room n) (Decoder.repeated d [] n) := by
  have hblank : (Array.replicate n blank).toList = ([] : List α).reverse ++ List.replicate n blank :=
    Array.toList_replicate
  have hfill := fill_carries hr hblank
  exact Carries.unless ((make_carries hroom hsize).bind fun _ => hfill)

/-- Counted items have room: the count has been held against the bytes that are
left. -/
theorem counted_carries {least : Nat} {items : Nat → Nat → Step (List α)}
    (hstops : ∀ room n, Stops (items room n))
    (hitems : ∀ {room n : Nat}, n * least ≤ room → room ≤ size →
      Carries size (items room n) (Decoder.repeated d [] n)) :
    Carries size (counted least items) (Decoder.counted least d) := by
  intro m hm
  obtain ⟨n, m₁, hcount, hw, hrec, hview⟩ := count_carries least m hm
  have hrun : counted least items m = items m₁.rest.length n m₁ := by
    rw [counted, bind_of_ok hcount, bind_of_ok get_eq]
  cases herror : m₁.error with
  | some e =>
    obtain ⟨x, hx⟩ := hstops m₁.rest.length n m₁ (by simp [herror])
    refine ⟨x, m₁, hrun.trans hx, hw, hrec, ?_⟩
    rw [Decoder.counted, bind_bind, hview, view_of_error herror]
    rfl
  | none =>
    rw [view_of_none herror] at hview
    have hroom : n * least ≤ m₁.rest.length := by
      cases hv : m.view with
      | error e => rw [hv] at hview; cases hview
      | ok s =>
        rw [hv] at hview
        have hle := (Decoder.count_eq_ok.1 hview).2
        exact Nat.le_trans (Nat.mul_le_mul_right least hle) (Nat.div_mul_le_self _ _)
    obtain ⟨x, m₂, hx, hw₂, hrec₂, hview₂⟩ := hitems hroom hw.rest m₁ hw
    refine ⟨x, m₂, hrun.trans hx, hw₂, hrec₂.trans hrec, ?_⟩
    rw [Decoder.counted, bind_bind, hview, ← hview₂, view_of_none herror]
    rfl

/-! ## Tapes -/

theorem names_carry :
    Carries size (counted 2 fun room n => grow name 2 room [] n) (Decoder.counted 2 Decoder.name) :=
  counted_carries (fun room n => grow_stops name 2 room [] n) fun hroom hsize =>
    grow_carries name_carries hsize (by simpa using hroom)

theorem preset_stops (item : Step α) (blank : α) (least room n : Nat) :
    Stops (preset item blank least room n) := Stops.unless

theorem tables_carry (hr : Carries size r d) (blank : α) (least : Nat) :
    Carries size (counted least (preset r blank least)) (Decoder.counted least d) :=
  counted_carries (fun room n => preset_stops r blank least room n) fun hroom hsize =>
    preset_carries hr hroom hsize

theorem body_carries : Carries size body Decoder.body :=
  names_carry.bind fun _ => (tables_carry instr_carries _ _).bind fun _ =>
    (tables_carry (word_carries 4) _ _).bind fun _ => .pure _

/-- How a version is read: without one there is an error, and the zero read for
it is no version. -/
theorem edition_cases (hm : m.Within size) (hnone : m.error = none) :
    ∃ found m', edition m = .ok (found, m') ∧ m'.Within size ∧ m'.receiver = m.receiver ∧
      match m.rest with
      | [] => found = some (.corrupt .truncated)
      | v :: rest =>
        if v = version then found = none ∧ m'.error = none ∧ m'.rest = rest
        else found = some (.corrupt (.version v)) := by
  rcases take_cases 1 hm with ⟨b, rest, -, hrest, hlen, htake⟩ |
    ⟨e, m', htake, hw, hrec, herror, hview⟩
  · obtain ⟨v, rfl⟩ := List.length_eq_one_iff.1 hlen
    have hv : UInt8.ofNat (Bytes.ofLittleEndian [v]) = v := by simp [Bytes.ofLittleEndian]
    rw [edition, bind_of_ok (word_of_some htake rfl), hv, hrest]
    by_cases hversion : v = version
    · exact ⟨none, { m with rest }, by rw [if_pos hversion]; rfl, hm.drop hrest, rfl,
        by simp [hversion, hnone]⟩
    · refine ⟨some (.corrupt (.version v)), { m with rest }, ?_, hm.drop hrest, rfl,
        by simp [hversion]⟩
      rw [if_neg hversion, bind_of_ok get_eq]
      simp only [hnone, Option.getD_none]
      rfl
  · rw [view_of_none hnone] at hview
    rw [edition, bind_of_ok (word_of_none htake), if_neg (by decide), bind_of_ok get_eq]
    refine ⟨some e, m', by simp only [herror, Option.getD_some]; rfl, hw, hrec, ?_⟩
    cases hrest : m.rest with
    | nil =>
      rw [hrest] at hview
      have htrunc : Decoder.take 1 [] = .error (.corrupt .truncated) :=
        Decoder.take_of_short (by simp)
      rw [Except.error.inj (hview.symm.trans htrunc)]
    | cons v rest =>
      rw [hrest] at hview
      have hone : Decoder.take 1 (v :: rest) = .ok ([v], rest) := Decoder.take_eq_ok.2 ⟨rfl, rfl⟩
      cases hone.symm.trans hview

theorem header_cases (hm : m.Within size) (hnone : m.error = none) :
    ∃ found m', header m = .ok (found, m') ∧ m'.Within size ∧ m'.receiver = m.receiver ∧
      ((∃ e, found = some e ∧ Decoder.header m.rest = .error e) ∨
        found = none ∧ m'.error = none ∧ Decoder.header m.rest = .ok ((), m'.rest)) := by
  rcases take_cases magic.length hm with ⟨b, rest, -, hrest, hlen, htake⟩ |
    ⟨e, m', htake, hw, hrec, -, hview⟩
  · have hsplit : Decoder.split [] magic.length m.rest = some (b, rest) :=
      Decoder.split_eq_some.2 ⟨b, rfl, hlen, hrest⟩
    by_cases hb : b = magic
    · obtain ⟨found, m', hrun, hw, hrec, hcases⟩ := edition_cases (hm.drop hrest) hnone
      refine ⟨found, m', ?_, hw, hrec, ?_⟩
      · rw [header, bind_of_ok htake, ← hrun]
        simp [hb]
      · rw [Decoder.header, hsplit]
        cases rest with
        | nil => exact .inl ⟨_, hcases, by simp [hb]⟩
        | cons v rest =>
          by_cases hversion : v = version
          · obtain ⟨hfound, herror, hleft⟩ : found = none ∧ m'.error = none ∧ m'.rest = rest := by
              simpa [hversion] using hcases
            exact .inr ⟨hfound, herror, by simp [hb, hversion, hleft]⟩
          · have hfound : found = some (.corrupt (.version v)) := by simpa [hversion] using hcases
            exact .inl ⟨_, hfound, by simp [hb, hversion]⟩
    · refine ⟨some (.corrupt .magic), { m with rest }, ?_, hm.drop hrest, rfl, .inl ⟨_, rfl, ?_⟩⟩
      · rw [header, bind_of_ok htake]
        simp only [Option.getD_some, ne_eq, hb, not_false_eq_true, if_true]
        rfl
      · simp [Decoder.header, hsplit, hb]
  · rw [view_of_none hnone] at hview
    have hsplit : Decoder.split [] magic.length m.rest = none := by
      cases hr : Decoder.split [] magic.length m.rest with
      | none => rfl
      | some r =>
        have htaken : Decoder.take magic.length m.rest = .ok r := by rw [Decoder.take, hr]
        cases htaken.symm.trans hview
    refine ⟨some (.corrupt .magic), m', ?_, hw, hrec, .inl ⟨_, rfl, ?_⟩⟩
    · rw [header, bind_of_ok htake]
      simp only [Option.getD_none, ne_eq, show ¬([] : Bytes) = magic by decide +kernel,
        not_false_eq_true, if_true]
      rfl
    · rw [Decoder.header, hsplit]

/-- The tape that was read, if nothing is left behind it and it is valid. -/
def settle (t : Tape) (rest : Bytes) : Except TapeError Tape :=
  if rest.length ≠ 0 then .error (.corrupt (.trailing rest.length)) else t.validate.map fun _ => t

theorem decode_eq_settle (s : Bytes) :
    decode s =
      ((Decoder.header s).bind fun p => Decoder.body p.2).bind fun p => settle p.1 p.2 := by
  have htape : Decoder.tape s = ((Decoder.header s).bind fun p => Decoder.body p.2).bind fun p =>
      (Decoder.ending p.2).map fun q => (p.1, q.2) := by
    rw [Decoder.tape_eq]
    show Except.bind (Decoder.header s) (fun p => Except.bind (Decoder.body p.2) fun q => _) = _
    cases Decoder.header s with
    | error e => rfl
    | ok p => rfl
  rw [decode, htape]
  cases (Decoder.header s).bind fun p => Decoder.body p.2 with
  | error e => rfl
  | ok p =>
    obtain ⟨t, rest⟩ := p
    cases rest with
    | nil =>
      show Except.bind t.validate _ = settle t []
      cases hvalid : t.validate <;>
        simp [settle, hvalid, Except.bind, Except.map, pure, Except.pure]
    | cons b rest => rfl

theorem accept_eq (t : Tape) (hm : m.Within size) :
    ∃ m', accept t m = .ok ((m.view.bind (settle t)).map fun _ => (), m') ∧ m'.Within size ∧
      m'.receiver = (m.view.bind (settle t)).toOption.getD m.receiver := by
  cases herror : m.error with
  | some e => exact ⟨m, by simp [accept, view, herror, Except.bind, Except.map], hm,
      by simp [view, herror, Except.bind, Except.toOption]⟩
  | none =>
    rw [view_of_none herror]
    show ∃ m', accept t m = .ok ((settle t m.rest).map fun _ => (), m') ∧ _ ∧
      m'.receiver = (settle t m.rest).toOption.getD m.receiver
    by_cases hrest : m.rest.length ≠ 0
    · exact ⟨m, by simp only [accept, herror, settle, if_pos hrest]; rfl, hm,
        by rw [settle, if_pos hrest]; rfl⟩
    · cases hvalid : t.validate with
      | error e => exact ⟨m, by simp only [accept, herror, settle, if_neg hrest, hvalid]; rfl, hm,
          by rw [settle, if_neg hrest, hvalid]; rfl⟩
      | ok _ => exact ⟨{ m with receiver := t },
          by simp only [accept, herror, settle, if_neg hrest, hvalid]; rfl, ⟨hm.rest, hm.made⟩,
          by rw [settle, if_neg hrest, hvalid]; rfl⟩

/-- Decoding step by step ends as `decode` does, without faults, and changes
the receiver only if there is a tape to receive. -/
theorem receive_eq (t : Tape) (s : Bytes) :
    ∃ m, receive t s = .ok ((decode s).map fun _ => (), m) ∧ m.Within s.length ∧
      m.receiver = (decode s).toOption.getD t := by
  have hstart : ({ rest := s, receiver := t } : Intake).Within s.length :=
    ⟨Nat.le_refl _, by simp⟩
  obtain ⟨found, m₁, hrun, hw₁, hrec₁, ⟨e, rfl, hheader⟩ | ⟨rfl, hnone, hheader⟩⟩ :=
    header_cases hstart rfl
  · have hdecode : decode s = .error e := by
      rw [decode_eq_settle]
      rw [show Decoder.header s = .error e from hheader]
      rfl
    refine ⟨m₁, ?_, hw₁, by rw [hdecode]; exact hrec₁⟩
    rw [receive, bind_of_ok hrun, hdecode]
    rfl
  · obtain ⟨u, m₂, hbody, hw₂, hrec₂, hview⟩ := body_carries m₁ hw₁
    obtain ⟨m₃, haccept, hw₃, hrec₃⟩ := accept_eq u hw₂
    have hdecode : decode s = m₂.view.bind (settle u) := by
      rw [decode_eq_settle, show Decoder.header s = .ok ((), m₁.rest) from hheader]
      show (Decoder.body m₁.rest).bind _ = _
      rw [view_of_none hnone] at hview
      rw [show Decoder.body m₁.rest = m₂.view.map fun rest => (u, rest) from hview]
      cases m₂.view <;> rfl
    refine ⟨m₃, ?_, hw₃, by rw [hdecode, hrec₃, hrec₂, hrec₁]⟩
    rw [receive, bind_of_ok hrun, hdecode, ← haccept]
    exact bind_of_ok hbody

end Intake

/-- **Encoding and decoding undo each other.** A tape that was built, decoded or
simplified is decoded from its bytes, if it has any and its tables can be
counted. What is decoded is valid, its bytes are the bytes given, and no other
bytes that start with them or that they start with are the bytes of a tape.
Decoding into a tape step by step gives the same answer and never faults; it
leaves the tape as it was if the bytes are refused, and makes no table or text
of more items than the bytes that are left have room for. -/
theorem decode_inverts_encode :
    (∀ (t : Tape) (s : Bytes), t.Obtained → t.vars.size < 2 ^ 32 → t.outputs.size < 2 ^ 32 →
      t.encode = .ok s → decode s = .ok t) ∧
    (∀ (s : Bytes) (t : Tape), decode s = .ok t → t.validate = .ok () ∧ t.encode = .ok s ∧
      ∀ (s' : Bytes) (u : Tape), decode s' = .ok u → s <+: s' ∨ s' <+: s → s' = s) ∧
    ∀ (receiver : Tape) (s : Bytes), ∃ result m, Intake.receive receiver s = .ok (result, m) ∧
      (∀ a ∈ m.made, a.items * a.least ≤ a.room ∧ a.room ≤ s.length) ∧
      (∀ e, decode s = .error e → result = .error e ∧ m.receiver = receiver) ∧
      ∀ t, decode s = .ok t → result = .ok () ∧ m.receiver = t := by
  refine ⟨fun t s ht hvars houtputs hs => ?_, fun s t hs => ?_, fun receiver s => ?_⟩
  · obtain ⟨hnames, rfl⟩ := encode_eq_ok.1 hs
    have hregular := ht.regular
    exact decode_eq_ok.2 ⟨hregular.encodable hvars houtputs hnames, hregular.valid, rfl⟩
  · obtain ⟨hfits, hvalid, rfl⟩ := decode_eq_ok.1 hs
    refine ⟨hvalid, encode_eq_ok.2 ⟨hfits.names, rfl⟩, fun s' u hu hprefix => ?_⟩
    obtain ⟨hfits', -, rfl⟩ := decode_eq_ok.1 hu
    rcases hprefix with ⟨extra, hextra⟩ | ⟨extra, hextra⟩
    · rw [(hfits.bytes_inj hfits' hextra).1]
    · rw [(hfits'.bytes_inj hfits hextra).1]
  · obtain ⟨m, hrun, hwithin, hreceiver⟩ := Intake.receive_eq receiver s
    refine ⟨_, m, hrun, hwithin.made, fun e he => ?_, fun t ht => ?_⟩
    · rw [he] at hreceiver ⊢
      exact ⟨rfl, hreceiver⟩
    · rw [ht] at hreceiver ⊢
      exact ⟨rfl, hreceiver⟩

/-- All that choices leave of `nestedChoices`. -/
def firstInput : Tape where
  instrs := #[{ code := Op.input.code, var := 0 }]
  outputs := #[0, 0, 0]
  vars := nestedChoices.vars

/-- It is decoded from its bytes. Without the last of them there is no room for
the outputs that are counted, and the receiver stays as it is. -/
theorem decode_inverts_encode_firstInput :
    nestedChoices.simplify [.unknown, .unknown, .left, .left] = .ok firstInput ∧
      decode firstInput.bytes = .ok firstInput ∧
      ∃ m, Intake.receive nestedChoices firstInput.bytes.dropLast =
          .ok (.error (.corrupt (.count 3)), m) ∧ m.receiver = nestedChoices := by
  obtain ⟨hencode, -, hreceive⟩ := decode_inverts_encode
  have hnested : nestedChoices.Obtained :=
    .decoded (s := nestedChoices.bytes) (by decide +kernel)
  have hsimplify : nestedChoices.simplify [.unknown, .unknown, .left, .left] = .ok firstInput := by
    decide +kernel
  have hrefused : decode firstInput.bytes.dropLast = .error (.corrupt (.count 3)) := by
    decide +kernel
  refine ⟨hsimplify, hencode _ _ (hnested.simplified hsimplify) (by decide) (by decide)
    (by decide +kernel), ?_⟩
  obtain ⟨result, m, hrun, -, herror, -⟩ := hreceive nestedChoices firstInput.bytes.dropLast
  obtain ⟨rfl, hsame⟩ := herror _ hrefused
  exact ⟨m, hrun, hsame⟩

end Tape

end ScalarField
