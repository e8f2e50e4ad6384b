import PassHash.Area

/-!
# Chains of Checks

Hashing a phrase and making a setting are chains of checks, each of which lets the chain go on or
refuses with its own cause. A chain ends well exactly if every link of it does. Room enters a chain
only as a demand: where there is less than the chain needs, it is refused for that, and where there
is more, nothing changes.

## Contents

- `Room.Least`, `Room.Demands`: the least room of a chain, and chains that have one
- `Room.Fitting`: chains that make sure of the room for their text

## Main statements

- `Checks.need_bind_eq_ok_iff`, `Checks.orInvalid_bind_eq_ok_iff` and their companions: the first
  link of a chain that ends well
- `Checks.ite_throw_bind_eq_ok_iff`: a link that throws under a condition
- `Checks.fit_eq_ok_iff`: the last link
- `Room.Demands.bind`: links that demand room make a chain that does
- `Room.Demands.eq_or_eq_range`, `Room.Demands.eq_ok_of_le`: the same chain with other room
-/

namespace PassHash

namespace Checks

variable {α β : Type}

/-! ## Single links -/

/-- A chain ends well exactly if its first link does and the rest does after it. -/
theorem bind_eq_ok_iff {ε : Type} {x : Except ε α} {f : α → Except ε β} {b : β} :
    (x >>= f) = .ok b ↔ ∃ a, x = .ok a ∧ f a = .ok b := by
  cases x <;> simp [bind, Except.bind]

theorem map_eq_ok_iff {ε : Type} {x : Except ε α} {f : α → β} {b : β} :
    x.map f = .ok b ↔ ∃ a, x = .ok a ∧ f a = b := by
  cases x <;> simp [Except.map]

/-- A check that ends well has just one way to do so. -/
theorem eq_ok_of_isOk {ε : Type} {x : Except ε Unit} (h : x.isOk = true) : x = .ok () := by
  cases x with
  | error e => cases h
  | ok _ => rfl

theorem need_bind_eq_ok_iff {available needed : Nat} {f : Unit → Except Failure β} {b : β} :
    (Room.need available needed >>= f) = .ok b ↔ needed ≤ available ∧ f () = .ok b := by
  unfold Room.need
  split <;> simp [bind, Except.bind, *]

theorem unlessInvalid_bind_eq_ok_iff {c : Bool} {f : Unit → Except Failure β} {b : β} :
    (Failure.unlessInvalid c >>= f) = .ok b ↔ c = true ∧ f () = .ok b := by
  cases c <;> simp [Failure.unlessInvalid, bind, Except.bind]

theorem orInvalid_eq_ok_iff {a? : Option α} {a : α} :
    Failure.orInvalid a? = .ok a ↔ a? = some a := by
  cases a? <;> simp [Failure.orInvalid]

theorem orInvalid_bind_eq_ok_iff {a? : Option α} {f : α → Except Failure β} {b : β} :
    (Failure.orInvalid a? >>= f) = .ok b ↔ ∃ a, a? = some a ∧ f a = .ok b := by
  cases a? <;> simp [Failure.orInvalid, bind, Except.bind]

theorem ite_throw_bind_eq_ok_iff {c : Prop} [Decidable c] {e : Failure}
    {f : PUnit → Except Failure β} {x : Except Failure β} {b : β} :
    (if c then (throw e >>= f) else x) = .ok b ↔ ¬c ∧ x = .ok b := by
  split <;> simp [throw, throwThe, MonadExceptOf.throw, bind, Except.bind, *]

/-- The last link of a chain of checks, in terms of what comes out. -/
theorem fit_eq_ok_iff {available : Nat} {text made : Bytes} :
    Room.fit available text = .ok made ↔ made.length + 1 ≤ available ∧ text = made := by
  rw [Room.fit_eq_ok_iff]
  constructor
  · rintro ⟨hlen, rfl⟩
    exact ⟨hlen, rfl⟩
  · rintro ⟨hlen, rfl⟩
    exact ⟨hlen, rfl⟩

/-- Two demands that are both met or both not met come to the same. -/
theorem need_congr {available needed needed' : Nat}
    (h : decide (needed ≤ available) = decide (needed' ≤ available)) :
    Room.need available needed = Room.need available needed' := by
  have hiff := decide_eq_decide.1 h
  unfold Room.need
  by_cases hn : needed ≤ available
  · rw [if_pos hn, if_pos (hiff.1 hn)]
  · rw [if_neg hn, if_neg fun hn' => hn (hiff.2 hn')]

end Checks

/-! ## Demands for room -/

namespace Room

variable {α β : Type}

/-- As much room of either kind. -/
instance : LE Room := ⟨fun a b => a.output ≤ b.output ∧ a.scratch ≤ b.scratch⟩

theorem le_trans {a b c : Room} (h : a ≤ b) (h' : b ≤ c) : a ≤ c :=
  ⟨Nat.le_trans h.1 h'.1, Nat.le_trans h.2 h'.2⟩

/-- The least room in which a chain ends well: with as much it gives the same, and with less it is
    refused for that. -/
structure Least (f : Room → Except Failure α) (a : α) (least : Room) : Prop where
  eq_ok : ∀ room, least ≤ room → f room = .ok a
  eq_range : ∀ room, ¬least ≤ room → f room = .error .range

/-- A chain that has a least room if it ends well in any. -/
def Demands (f : Room → Except Failure α) : Prop :=
  ∀ room a, f room = .ok a → ∃ least, Least f a least

namespace Demands

variable {f : Room → Except Failure α} {g : α → Room → Except Failure β}

/-- A link that does not look at the room. -/
theorem const (x : Except Failure α) : Demands fun _ => x := by
  rintro room a rfl
  refine ⟨⟨0, 0⟩, fun _ _ => rfl, fun _ hless => ?_⟩
  exact absurd ⟨Nat.zero_le _, Nat.zero_le _⟩ hless

theorem output (needed : Nat) : Demands fun room => need room.output needed := by
  rintro room ⟨⟩ -
  refine ⟨⟨needed, 0⟩, fun _ henough => if_pos henough.1, fun _ hless => if_neg ?_⟩
  exact fun hle => hless ⟨hle, Nat.zero_le _⟩

theorem scratch (needed : Nat) : Demands fun room => need room.scratch needed := by
  rintro room ⟨⟩ -
  refine ⟨⟨0, needed⟩, fun _ henough => if_pos henough.2, fun _ hless => if_neg ?_⟩
  exact fun hle => hless ⟨Nat.zero_le _, hle⟩

/-- A chain needs what its first link needs and what the others need after it. -/
theorem bind (hf : Demands f) (hg : ∀ a, Demands (g a)) :
    Demands fun room => f room >>= fun a => g a room := by
  intro room b h
  obtain ⟨a, ha, hb⟩ := Checks.bind_eq_ok_iff.1 h
  obtain ⟨first, hfirst⟩ := hf room a ha
  obtain ⟨rest, hrest⟩ := hg a room b hb
  refine ⟨⟨max first.output rest.output, max first.scratch rest.scratch⟩, ?enough, ?less⟩
  case enough =>
    rintro room ⟨ho, hs⟩
    rw [Nat.max_le] at ho hs
    exact Checks.bind_eq_ok_iff.2
      ⟨a, hfirst.eq_ok room ⟨ho.1, hs.1⟩, hrest.eq_ok room ⟨ho.2, hs.2⟩⟩
  case less =>
    intro room hless
    show (f room >>= fun a => g a room) = _
    -- the first link that lacks room refuses
    by_cases h : first ≤ room
    · have hrest' : ¬rest ≤ room := fun h' =>
        hless ⟨Nat.max_le.2 ⟨h.1, h'.1⟩, Nat.max_le.2 ⟨h.2, h'.2⟩⟩
      rw [hfirst.eq_ok room h]
      exact hrest.eq_range room hrest'
    · rw [hfirst.eq_range room h]
      rfl

/-- A choice that does not look at the room. -/
theorem ite {c : Prop} [Decidable c] {f' : Room → Except Failure α} (hf : Demands f)
    (hf' : Demands f') : Demands fun room => if c then f room else f' room := by
  by_cases hc : c
  · simpa only [if_pos hc] using hf
  · simpa only [if_neg hc] using hf'

/-- The last link. -/
theorem fit (text : Bytes) : Demands fun room => Room.fit room.output text :=
  (output _).bind fun _ => const _

/-- With other room the chain ends the same, or is refused for lack of room. -/
theorem eq_or_eq_range (hf : Demands f) {room : Room} {a : α} (h : f room = .ok a) (room' : Room) :
    f room' = .ok a ∨ f room' = .error .range := by
  obtain ⟨least, hleast⟩ := hf room a h
  by_cases henough : least ≤ room'
  · exact .inl (hleast.eq_ok room' henough)
  · exact .inr (hleast.eq_range room' henough)

/-- With more room the chain ends the same. -/
theorem eq_ok_of_le (hf : Demands f) {room room' : Room} {a : α} (h : f room = .ok a)
    (hle : room ≤ room') : f room' = .ok a := by
  obtain ⟨least, hleast⟩ := hf room a h
  by_cases henough : least ≤ room
  · exact hleast.eq_ok room' (le_trans henough hle)
  · rw [hleast.eq_range room henough] at h
    cases h

end Demands

/-! ## Texts that fit -/

/-- A chain that hands back no text but one that fits with its terminator. -/
def Fitting (available : Nat) (x : Except Failure Bytes) : Prop :=
  ∀ text, x = .ok text → text.length + 1 ≤ available

namespace Fitting

variable {available : Nat}

theorem bind {x : Except Failure α} {f : α → Except Failure Bytes}
    (hf : ∀ a, Fitting available (f a)) : Fitting available (x >>= f) := by
  intro text h
  obtain ⟨a, -, ha⟩ := Checks.bind_eq_ok_iff.1 h
  exact hf a text ha

theorem ite {c : Prop} [Decidable c] {x y : Except Failure Bytes} (hx : Fitting available x)
    (hy : Fitting available y) : Fitting available (if c then x else y) := by
  split
  · exact hx
  · exact hy

theorem fit (text : Bytes) : Fitting available (Room.fit available text) :=
  fun _ h => (Checks.fit_eq_ok_iff.1 h).1

theorem error (e : Failure) : Fitting available (.error e) := fun _ h => nomatch h

end Fitting

end Room

end PassHash
