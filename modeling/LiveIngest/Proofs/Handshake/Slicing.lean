import Mathlib.Logic.Basic
import LiveIngest.Proofs.Handshake.Bytewise
import LiveIngest.Proofs.Handshake.Packets

/-!
# The handshake over slices

A handshake is read from slices one after the other, up to the first fault: `Machine.readAll`.

The machine behind some input is not told by running it, but by the input alone (`Machine.behind`),
and so is what it sends while it takes more (`due`). A byte leads from the machine behind the bytes
before it to the machine behind the bytes with it (`step_behind`), and so does a slice
(`parse_behind`), wherever it is cut.

Main statement: `readAll_slices` — what is taken, what is answered and when, and where the handshake
ends, over all slices of all input.
-/

namespace LiveIngest.Handshake

/-- How many bytes the client sends in a handshake. -/
def inputSize : Nat := 1 + packetSize + packetSize

/-- The packet C1 of the input, as far as it has come. -/
def c1Of (bytes : List UInt8) : List UInt8 :=
  bytes.tail.take packetSize

/-- The input begins with the version, if it has begun. -/
def Opens (bytes : List UInt8) : Prop :=
  ∀ b, bytes.head? = some b → b = version

/-- What is sent while `slice` is taken behind `bytes`: the whole answer, if `slice` holds the last
byte of C1. -/
def due (crypto : Crypto) (wall : Nat) (bytes slice : List UInt8) : List UInt8 :=
  if bytes.length < 1 + packetSize ∧ 1 + packetSize ≤ bytes.length + slice.length then
    (reply crypto wall (c1Of (bytes ++ slice))).2
  else []

theorem Opens.of_append {xs ys : List UInt8} (h : Opens (xs ++ ys)) : Opens xs := by
  intro b hb
  refine h b ?_
  rw [List.head?_append, hb]
  rfl

/-- Behind C1, the packet is what it is. -/
theorem c1Of_append {bytes : List UInt8} (h : 1 + packetSize ≤ bytes.length)
    (more : List UInt8) : c1Of (bytes ++ more) = c1Of bytes := by
  cases bytes with
  | nil => exact absurd h (by decide)
  | cons first packets =>
    have hlength : packetSize ≤ packets.length := by
      rw [List.length_cons] at h
      omega
    exact List.take_append_of_le_length hlength

theorem length_c1Of {bytes : List UInt8} (h : 1 + packetSize ≤ bytes.length) :
    (c1Of bytes).length = packetSize := by
  unfold c1Of
  rw [List.length_take, List.length_tail]
  omega

namespace Machine

/-- The machine that has taken `bytes`, which begin with the version. -/
def behind (crypto : Crypto) (wall : Nat) : List UInt8 → Machine
  | [] => .initial
  | first :: packets =>
    if packets.length < packetSize then
      ⟨.c1 (packetSize - packets.length) packets.reverse, .plain⟩
    else
      let format := (reply crypto wall (c1Of (first :: packets))).1
      if packets.length < packetSize + packetSize then
        ⟨.c2 (packetSize + packetSize - packets.length), format⟩
      else ⟨.done, format⟩

/-- Read slices up to the first fault. -/
def readAll (crypto : Crypto) (wall : Nat) (m : Machine) : List (List UInt8) → Reading
  | [] => ⟨m, 0, [], none⟩
  | slice :: rest =>
    let r := m.parse crypto wall slice
    match r.fault with
    | none => (r.machine.readAll crypto wall rest).after r.consumed r.reply
    | some _ => r

variable {crypto : Crypto} {wall : Nat}

/-! ### One byte -/

theorem isDone_behind (bytes : List UInt8) :
    (behind crypto wall bytes).isDone = true ↔ inputSize ≤ bytes.length := by
  unfold behind
  split
  · exact iff_of_false Bool.false_ne_true (by decide)
  · rename_i first packets
    rw [List.length_cons, inputSize]
    dsimp only
    split
    · exact iff_of_false Bool.false_ne_true (by omega)
    · split
      · exact iff_of_false Bool.false_ne_true (by omega)
      · exact iff_of_true rfl (by omega)

/-- What follows C2 leaves the machine alone. -/
theorem behind_append {bytes : List UInt8} (h : inputSize ≤ bytes.length) (more : List UInt8) :
    behind crypto wall (bytes ++ more) = behind crypto wall bytes := by
  cases bytes with
  | nil => exact absurd h (by decide)
  | cons first packets =>
    rw [inputSize, List.length_cons] at h
    -- C1 is complete, and so is what is kept of it
    have hc1 : c1Of (first :: (packets ++ more)) = c1Of (first :: packets) :=
      @c1Of_append (first :: packets) (by rw [List.length_cons]; omega) more
    unfold behind
    dsimp only [List.cons_append]
    rw [hc1, List.length_append, if_neg (by omega), if_neg (by omega), if_neg (by omega),
      if_neg (by omega)]

/-- **A byte of the handshake** leads from what is told by the bytes before it to what is told by
the bytes with it. -/
theorem step_behind {bytes : List UInt8} (hmore : bytes.length < inputSize) {b : UInt8}
    (hopens : Opens (bytes ++ [b])) :
    (behind crypto wall bytes).step crypto wall b =
      .ok (behind crypto wall (bytes ++ [b]), due crypto wall bytes [b]) := by
  have hpacket : 0 < packetSize := by decide
  cases bytes with
  | nil =>
    have hversion : b = version := hopens b rfl
    rw [hversion]
    rfl
  | cons first packets =>
    rw [inputSize, List.length_cons] at hmore
    have hlength : (packets ++ [b]).length = packets.length + 1 := List.length_append
    unfold behind due
    dsimp only [List.cons_append]
    rw [hlength, List.length_cons, List.length_singleton]
    by_cases hc1 : packets.length < packetSize
    · have hbytes : packets.length + 1 < 1 + packetSize := by omega
      rw [if_pos hc1]
      unfold step
      dsimp only
      by_cases hlast : packetSize - packets.length ≤ 1
      · -- the last byte of C1, which is then all that has come of the packets
        have hfull : packets.length + 1 = packetSize := by omega
        have htake : c1Of (first :: (packets ++ [b])) = packets ++ [b] :=
          List.take_of_length_le (Nat.le_of_eq (hlength.trans hfull))
        have hreverse : (b :: packets.reverse).reverse = packets ++ [b] := by
          rw [List.reverse_cons, List.reverse_reverse]
        have hanswer : packetSize < 1 + packetSize ∧ 1 + packetSize ≤ packetSize + 1 := by omega
        have hc2 : packetSize < packetSize + packetSize := by omega
        rw [if_pos hlast, hfull, if_neg (Nat.lt_irrefl _), if_pos hc2, if_pos hanswer, htake,
          hreverse, Nat.add_sub_cancel]
      · have hstill : packets.length + 1 < packetSize := by omega
        have hsilent : ¬ (packets.length + 1 < 1 + packetSize ∧
            1 + packetSize ≤ packets.length + 1 + 1) := by omega
        rw [if_neg hlast, if_pos hstill, if_neg hsilent, List.reverse_append, Nat.sub_sub]
        rfl
    · -- a byte of C2
      have hsame : c1Of (first :: (packets ++ [b])) = c1Of (first :: packets) :=
        @c1Of_append (first :: packets) (by rw [List.length_cons]; omega) [b]
      have hc2 : packets.length < packetSize + packetSize := by omega
      have hover : ¬ packets.length + 1 < packetSize := by omega
      have hsilent : ¬ (packets.length + 1 < 1 + packetSize ∧
          1 + packetSize ≤ packets.length + 1 + 1) := by omega
      rw [if_neg hc1, if_pos hc2, if_neg hover, if_neg hsilent, hsame]
      unfold step
      dsimp only
      by_cases hlast : packetSize + packetSize - packets.length ≤ 1
      · have hfull : ¬ packets.length + 1 < packetSize + packetSize := by omega
        rw [if_pos hlast, if_neg hfull]
      · have hstill : packets.length + 1 < packetSize + packetSize := by omega
        rw [if_neg hlast, if_pos hstill, Nat.sub_sub]

/-- Every machine that took input is sound. -/
theorem sound_behind (bytes : List UInt8) : (behind crypto wall bytes).Sound := by
  unfold behind
  split
  · exact .initial
  · dsimp only
    split
    · rename_i h
      exact Nat.sub_pos_of_lt h
    · split
      · rename_i h
        exact Nat.sub_pos_of_lt h
      · trivial

/-! ### Slices -/

/-- What is due for a slice is due for one part of it or for the other. -/
theorem due_append (bytes xs ys : List UInt8) :
    due crypto wall bytes xs ++ due crypto wall (bytes ++ xs) ys =
      due crypto wall bytes (xs ++ ys) := by
  unfold due
  rw [List.append_assoc, List.length_append, List.length_append]
  by_cases hfirst : bytes.length < 1 + packetSize ∧ 1 + packetSize ≤ bytes.length + xs.length
  · -- the first part holds the last byte of C1, and the other one is behind it
    have hc1 : c1Of (bytes ++ (xs ++ ys)) = c1Of (bytes ++ xs) := by
      rw [← List.append_assoc]
      exact c1Of_append (by rw [List.length_append]; exact hfirst.2) ys
    have hbehind : ¬ (bytes.length + xs.length < 1 + packetSize ∧
        1 + packetSize ≤ bytes.length + xs.length + ys.length) := by omega
    have hwhole : bytes.length < 1 + packetSize ∧
        1 + packetSize ≤ bytes.length + (xs.length + ys.length) := by omega
    rw [if_pos hfirst, if_neg hbehind, if_pos hwhole, hc1, List.append_nil]
  · rw [if_neg hfirst, List.nil_append]
    exact if_congr (by omega) rfl rfl

/-- **A slice of the handshake**: the machine takes what it misses of the input, and sends what is
due. -/
theorem parse_behind {bytes slice : List UInt8} (hopens : Opens (bytes ++ slice)) :
    (behind crypto wall bytes).parse crypto wall slice =
      ⟨behind crypto wall (bytes ++ slice),
        min (bytes.length + slice.length) inputSize - min bytes.length inputSize,
        due crypto wall bytes slice, none⟩ := by
  induction slice generalizing bytes with
  | nil =>
    have hdue : due crypto wall bytes [] = [] := by
      unfold due
      rw [List.length_nil, if_neg (by omega)]
    rw [parse_nil (sound_behind bytes), List.append_nil, hdue, List.length_nil, Nat.add_zero,
      Nat.sub_self]
  | cons b rest ih =>
    have happend : bytes ++ [b] ++ rest = bytes ++ b :: rest := by
      rw [List.append_assoc, List.singleton_append]
    by_cases hdone : inputSize ≤ bytes.length
    · -- what follows C2 is left alone
      have hdue : due crypto wall bytes (b :: rest) = [] := by
        unfold due
        rw [if_neg (by unfold inputSize at hdone; omega)]
      rw [parse_of_isDone ((isDone_behind bytes).2 hdone), behind_append hdone, hdue,
        Nat.min_eq_right hdone, Nat.min_eq_right (Nat.le_add_right_of_le hdone), Nat.sub_self]
    · -- by induction on the slice: its first byte, and then the others
      have hmore := Nat.lt_of_not_le hdone
      have hfirst : Opens (bytes ++ [b]) := @Opens.of_append _ rest (happend ▸ hopens)
      have hnot : (behind crypto wall bytes).isDone = false :=
        Bool.eq_false_iff.2 fun h => hdone ((isDone_behind bytes).1 h)
      have hcount : 1 + (min ((bytes ++ [b]).length + rest.length) inputSize -
          min (bytes ++ [b]).length inputSize) =
            min (bytes.length + (b :: rest).length) inputSize - min bytes.length inputSize := by
        rw [List.length_append, List.length_singleton, List.length_cons]
        omega
      rw [parse_cons_ok (sound_behind bytes) hnot (step_behind hmore hfirst),
        ih (happend ▸ hopens), Reading.after, happend, due_append, hcount]
      rfl

/-- The slices of an input are read like the input. -/
theorem readAll_behind {bytes : List UInt8} {slices : List (List UInt8)}
    (hopens : Opens (bytes ++ slices.flatten)) :
    (behind crypto wall bytes).readAll crypto wall slices =
      ⟨behind crypto wall (bytes ++ slices.flatten),
        min (bytes.length + slices.flatten.length) inputSize - min bytes.length inputSize,
        due crypto wall bytes slices.flatten, none⟩ := by
  -- on the slices; the bytes that came before are carried along
  induction slices generalizing bytes with
  | nil =>
    have hnone := @parse_behind crypto wall bytes [] hopens
    rw [parse_nil (sound_behind bytes)] at hnone
    exact hnone
  | cons slice rest ih =>
    rw [List.flatten_cons, ← List.append_assoc] at hopens
    -- what two parts take adds up to what the whole takes
    have hcount : min (bytes.length + slice.length) inputSize - min bytes.length inputSize +
        (min ((bytes ++ slice).length + rest.flatten.length) inputSize -
          min (bytes ++ slice).length inputSize) =
        min (bytes.length + (slice ++ rest.flatten).length) inputSize -
          min bytes.length inputSize := by
      rw [List.length_append, List.length_append]
      omega
    unfold readAll
    rw [parse_behind hopens.of_append]
    dsimp only
    rw [ih hopens, Reading.after, due_append, hcount, List.flatten_cons, List.append_assoc]

/-- Empty slices bring nothing. -/
theorem readAll_of_empty {slices : List (List UInt8)} (h : ∀ slice ∈ slices, slice = []) :
    Machine.initial.readAll crypto wall slices = ⟨.initial, 0, [], none⟩ := by
  have hflat : slices.flatten = [] := List.flatten_eq_nil_iff.2 h
  have hopens : Opens (([] : List UInt8) ++ slices.flatten) := by
    rw [hflat]
    exact fun _ hb => by cases hb
  have hread := @readAll_behind crypto wall [] slices hopens
  rw [hflat] at hread
  exact hread

/-- Input that does not begin with the version is at fault with its first byte. -/
theorem readAll_of_version {b : UInt8} (hb : b ≠ version) {slices : List (List UInt8)}
    (hhead : slices.flatten.head? = some b) :
    Machine.initial.readAll crypto wall slices =
      ⟨.initial, 0, [], some (.unsupportedVersion b version)⟩ := by
  induction slices with
  | nil => cases hhead
  | cons slice rest ih =>
    unfold readAll
    -- empty slices before the first byte change nothing
    cases slice with
    | nil =>
      rw [parse_nil .initial]
      exact congrArg (Reading.after · 0 []) (ih hhead)
    | cons first others =>
      obtain rfl : first = b := Option.some.inj hhead
      have hstep : Machine.initial.step crypto wall first =
          .error (.unsupportedVersion first version) := if_neg hb
      rw [parse_cons_error hstep]

/-! ### Whole inputs -/

/-- What becomes of input that begins with the version, in whatever slices it comes. -/
structure Taken (crypto : Crypto) (wall : Nat) (slices : List (List UInt8)) (r : Reading) :
    Prop where
  fault : r.fault = none
  /-- What follows C2 is never taken, so that the chunks begin behind `inputSize` bytes. -/
  consumed : r.consumed = min slices.flatten.length inputSize
  silent : slices.flatten.length < 1 + packetSize → r.reply = []
  /-- The answer is as long as the input of the client. -/
  answered : 1 + packetSize ≤ slices.flatten.length →
    r.reply = (reply crypto wall (c1Of slices.flatten)).2 ∧ r.reply.length = inputSize
  isDone : r.machine.isDone = true ↔ r.consumed = inputSize
  /-- The call that completes C1 gives the whole answer, and no other call gives anything. -/
  once : ∀ before slice after, slices = before ++ slice :: after →
    ((Machine.initial.readAll crypto wall before).machine.parse crypto wall slice).reply =
      if before.flatten.length < 1 + packetSize ∧
          1 + packetSize ≤ before.flatten.length + slice.length then
        (reply crypto wall (c1Of slices.flatten)).2
      else []

/-- **Input that begins with the version** is taken up to the end of the handshake. -/
theorem taken_readAll {slices : List (List UInt8)} (hopens : Opens slices.flatten) :
    Taken crypto wall slices (Machine.initial.readAll crypto wall slices) := by
  have hread : Machine.initial.readAll crypto wall slices =
      ⟨behind crypto wall slices.flatten, min slices.flatten.length inputSize,
        due crypto wall [] slices.flatten, none⟩ := by
    have hwhole := @readAll_behind crypto wall [] slices hopens
    rw [List.nil_append, List.length_nil, Nat.zero_add, Nat.zero_min, Nat.sub_zero] at hwhole
    exact hwhole
  rw [hread]
  refine ⟨rfl, rfl, fun hshort => ?_, fun hlong => ?_, ?_, fun before slice after hslices => ?_⟩
  · exact if_neg fun h => Nat.not_le.2 hshort (Nat.zero_add slices.flatten.length ▸ h.2)
  · have hdue : due crypto wall [] slices.flatten = (reply crypto wall (c1Of slices.flatten)).2 :=
      if_pos ⟨by decide, (Nat.zero_add slices.flatten.length).symm ▸ hlong⟩
    exact ⟨hdue, hdue ▸ length_reply crypto wall (length_c1Of hlong)⟩
  · rw [isDone_behind]
    exact ⟨Nat.min_eq_right, fun h => h ▸ Nat.min_le_left _ _⟩
  · -- the calls before this one have taken the slices before it
    have hflat : slices.flatten = before.flatten ++ slice ++ after.flatten := by
      rw [hslices, List.flatten_append, List.flatten_cons, List.append_assoc]
    have hthis : Opens (before.flatten ++ slice) := (hflat ▸ hopens).of_append
    have hbefore := @readAll_behind crypto wall [] before hthis.of_append
    have hmachine : (Machine.initial.readAll crypto wall before).machine =
        behind crypto wall before.flatten := congrArg Reading.machine hbefore
    rw [hmachine, parse_behind hthis]
    unfold due
    dsimp only
    split
    · rename_i hlast
      have hc1 : c1Of slices.flatten = c1Of (before.flatten ++ slice) := by
        rw [hflat]
        exact c1Of_append (by rw [List.length_append]; exact hlast.2) after.flatten
      rw [hc1]
    · rfl

/-- **The handshake over any slices.** Input that does not begin with the version fails the first
call that is given any of it; all other input is `Taken`. -/
theorem readAll_slices (crypto : Crypto) (wall : Nat) (slices : List (List UInt8)) :
    (∀ b, slices.flatten.head? = some b → b ≠ version →
      Machine.initial.readAll crypto wall slices =
          ⟨.initial, 0, [], some (.unsupportedVersion b version)⟩ ∧
        ∀ before slice after, slices = before ++ slice :: after → (∀ s ∈ before, s = []) →
          slice ≠ [] →
          Machine.initial.readAll crypto wall before = ⟨.initial, 0, [], none⟩ ∧
            Machine.initial.parse crypto wall slice =
              ⟨.initial, 0, [], some (.unsupportedVersion b version)⟩) ∧
    (Opens slices.flatten →
      Taken crypto wall slices (Machine.initial.readAll crypto wall slices)) := by
  refine ⟨fun b hhead hb => ⟨readAll_of_version hb hhead, ?_⟩, taken_readAll⟩
  intro before slice after hslices hempty hslice
  refine ⟨readAll_of_empty hempty, ?_⟩
  -- empty slices are passed over, and so the slice begins with the first byte of all
  obtain ⟨first, others, rfl⟩ := List.exists_cons_of_ne_nil hslice
  have hfirst : first = b := by
    rw [hslices, List.flatten_append, List.flatten_eq_nil_iff.2 hempty] at hhead
    exact Option.some.inj hhead
  have hstep : Machine.initial.step crypto wall first =
      .error (.unsupportedVersion first version) := if_neg (hfirst ▸ hb)
  rw [parse_cons_error hstep, hfirst]

/-- Input that begins with 6, behind an empty slice, and a whole handshake with two bytes of a chunk
behind it, cut inside C1 and inside C2. -/
theorem readAll_slices_cut :
    let crypto : Crypto := .seeded 0
    let wrong : List (List UInt8) := [[], [6, 0]]
    let right : List (List UInt8) := [[3], List.replicate 1000 0, List.replicate 1000 0,
      List.replicate 1072 0 ++ [2, 0]]
    Machine.initial.readAll crypto 0 wrong = ⟨.initial, 0, [], some (.unsupportedVersion 6 3)⟩ ∧
      Opens right.flatten ∧
      (Machine.initial.readAll crypto 0 right).consumed = 3073 ∧
      (Machine.initial.readAll crypto 0 right).reply.length = 3073 ∧
      (Machine.initial.readAll crypto 0 right).machine.isDone = true := by
  intro crypto wrong right
  have hopens : Opens right.flatten := fun b hb => (Option.some.inj hb).symm
  have hlength : right.flatten.length = 3075 := by
    simp only [right, List.length_flatten, List.map_cons, List.map_nil, List.length_append,
      List.length_replicate, List.length_cons, List.length_nil, List.sum_cons, List.sum_nil]
    rfl
  -- the lengths are all that counts, so the handshake itself is not evaluated
  have htaken := (readAll_slices crypto 0 right).2 hopens
  have hconsumed : (Machine.initial.readAll crypto 0 right).consumed = 3073 := by
    rw [htaken.consumed, hlength]
    rfl
  have hlong : 1 + packetSize ≤ right.flatten.length := by
    rw [hlength]
    decide
  exact ⟨((readAll_slices crypto 0 wrong).1 6 rfl (by decide)).1, hopens, hconsumed,
    (htaken.answered hlong).2, htaken.isDone.2 hconsumed⟩

end Machine

end LiveIngest.Handshake
