import Mathlib.Data.List.Basic

/-!
# Broadcasting to channels

A sender keeps a list of channels and sends every message to each of them.  A
channel whose receiver is gone is taken off the list when a send to it fails.
Receivers may go away before any send.
-/

namespace Broadcast

variable {α : Type*}

/-- One channel: whether the sender still has it, whether its receiver is gone,
and what was put into it. -/
structure Channel (α : Type*) where
  attached : Bool
  closed : Bool
  received : List α
deriving DecidableEq

namespace Channel

/-- A new channel. -/
def opened : Channel α := ⟨true, false, []⟩

def close (gone : Bool) (channel : Channel α) : Channel α :=
  { channel with closed := channel.closed || gone }

/-- Send, and detach the channel when that fails. -/
def send (a : α) (channel : Channel α) : Channel α :=
  if channel.attached then
    if channel.closed then { channel with attached := false }
    else { channel with received := channel.received ++ [a] }
  else channel

/-- Detach the channel when its receiver is gone. -/
def retainOpen (channel : Channel α) : Channel α :=
  { channel with attached := channel.attached && !channel.closed }

/-- Send several messages; before each of them the receiver may go away. -/
def deliver : List (α × Bool) → Channel α → Channel α
  | [], channel => channel
  | (a, gone) :: rest, channel => deliver rest ((channel.close gone).send a)

/-- The sender has the channel, and its receiver is there. -/
def Open (channel : Channel α) : Prop := channel.attached = true ∧ channel.closed = false

instance (channel : Channel α) : Decidable channel.Open := inferInstanceAs (Decidable (_ ∧ _))

@[simp] theorem received_close (gone : Bool) (channel : Channel α) :
    (channel.close gone).received = channel.received := rfl

@[simp] theorem received_retainOpen (channel : Channel α) :
    channel.retainOpen.received = channel.received := rfl

theorem send_of_open {a : α} {channel : Channel α} (h : channel.Open) :
    channel.send a = { channel with received := channel.received ++ [a] } := by
  simp [send, h.1, h.2]

theorem open_close_iff {gone : Bool} {channel : Channel α} :
    (channel.close gone).Open ↔ channel.Open ∧ gone = false := by
  simp [Open, close, and_assoc]

theorem received_send_of_not_open {a : α} {channel : Channel α} (h : ¬ channel.Open) :
    (channel.send a).received = channel.received := by
  unfold send
  split
  · split
    · rfl
    · rename_i hattached hclosed
      exact absurd ⟨hattached, by simpa using hclosed⟩ h
  · rfl

theorem not_open_close {gone : Bool} {channel : Channel α} (h : ¬ channel.Open) :
    ¬ (channel.close gone).Open := fun hopen ↦ h (open_close_iff.mp hopen).1

theorem not_open_send {a : α} {channel : Channel α} (h : ¬ channel.Open) :
    ¬ (channel.send a).Open := by
  unfold send
  split
  · split
    · simp [Open]
    · rename_i hattached hclosed
      exact absurd ⟨hattached, by simpa using hclosed⟩ h
  · exact h

/-- A channel that is not open gets nothing. -/
theorem received_deliver_of_not_open {channel : Channel α} (h : ¬ channel.Open)
    (sends : List (α × Bool)) : (channel.deliver sends).received = channel.received := by
  induction sends generalizing channel with
  | nil => rfl
  | cons entry rest ih =>
      obtain ⟨a, gone⟩ := entry
      have hclosed : ¬ (channel.close gone).Open := not_open_close h
      rw [deliver, ih (not_open_send hclosed), received_send_of_not_open hclosed, received_close]

theorem received_deliver_cons_of_not_open {channel : Channel α} {a : α} {gone : Bool}
    (h : ¬ (channel.close gone).Open) (rest : List (α × Bool)) :
    (channel.deliver ((a, gone) :: rest)).received = channel.received := by
  rw [deliver, received_deliver_of_not_open (not_open_send h), received_send_of_not_open h,
    received_close]

/-- A channel gets the first messages, up to the one before which its receiver
goes away. -/
theorem received_deliver (channel : Channel α) (sends : List (α × Bool)) :
    ∃ m, (channel.deliver sends).received =
      channel.received ++ (sends.map Prod.fst).take m := by
  induction sends generalizing channel with
  | nil => exact ⟨0, by simp [deliver]⟩
  | cons entry rest ih =>
      obtain ⟨a, gone⟩ := entry
      by_cases hopen : (channel.close gone).Open
      · obtain ⟨m, hm⟩ := ih ((channel.close gone).send a)
        refine ⟨m + 1, ?_⟩
        rw [deliver, hm, send_of_open hopen]
        simp
      · refine ⟨0, ?_⟩
        rw [received_deliver_cons_of_not_open hopen]
        simp

/-- An open channel whose receiver stays gets everything and stays open. -/
theorem deliver_of_open {channel : Channel α} (h : channel.Open) {sends : List (α × Bool)}
    (hstays : ∀ entry ∈ sends, entry.2 = false) :
    channel.deliver sends =
      { channel with received := channel.received ++ sends.map Prod.fst } := by
  induction sends generalizing channel with
  | nil => simp [deliver]
  | cons entry rest ih =>
      obtain ⟨a, gone⟩ := entry
      obtain rfl : gone = false := hstays _ List.mem_cons_self
      have hopen : (channel.close false).Open := open_close_iff.mpr ⟨h, rfl⟩
      have hrest : ∀ entry ∈ rest, entry.2 = false := fun entry he ↦
        hstays entry (List.mem_cons_of_mem _ he)
      have hsent : ({ channel.close false with
          received := (channel.close false).received ++ [a] } : Channel α).Open := hopen
      rw [deliver, send_of_open hopen, ih hsent hrest]
      simp [close, h.2]

theorem received_deliver_cons_of_open {channel : Channel α} {a : α} {gone : Bool}
    (h : (channel.close gone).Open) (rest : List (α × Bool)) :
    ∃ more, (channel.deliver ((a, gone) :: rest)).received = channel.received ++ a :: more := by
  obtain ⟨m, hm⟩ := received_deliver ((channel.close gone).send a) rest
  refine ⟨(rest.map Prod.fst).take m, ?_⟩
  rw [deliver, hm, send_of_open h]
  simp

end Channel

/-! ## All channels of a sender -/

/-- Receivers go away, told apart by the position of their channel. -/
def closeAll (gone : ℕ → Bool) (channels : List (Channel α)) : List (Channel α) :=
  channels.mapIdx fun i channel ↦ channel.close (gone i)

def deliverAll : List (α × (ℕ → Bool)) → List (Channel α) → List (Channel α)
  | [], channels => channels
  | (a, gone) :: rest, channels =>
      deliverAll rest ((closeAll gone channels).map (Channel.send a))

/-- Each channel gets what it would get alone. -/
theorem getElem?_deliverAll (sends : List (α × (ℕ → Bool))) (channels : List (Channel α))
    (i : ℕ) : (deliverAll sends channels)[i]? =
      channels[i]?.map (Channel.deliver (sends.map fun (a, gone) ↦ (a, gone i))) := by
  induction sends generalizing channels with
  | nil => simp [deliverAll, Channel.deliver]
  | cons entry rest ih =>
      obtain ⟨a, gone⟩ := entry
      rw [deliverAll, ih]
      simp only [closeAll, List.getElem?_map, List.getElem?_mapIdx, Option.map_map, List.map_cons]
      rfl

theorem exists_received_of_mem_deliverAll {sends : List (α × (ℕ → Bool))}
    {channels : List (Channel α)} {received : List α}
    (h : received ∈ (deliverAll sends channels).map Channel.received) :
    ∃ channel ∈ channels, ∃ m, received = channel.received ++ (sends.map Prod.fst).take m := by
  obtain ⟨i, hi⟩ := List.mem_iff_getElem?.mp h
  rw [List.getElem?_map, getElem?_deliverAll, Option.map_map, Option.map_eq_some_iff] at hi
  obtain ⟨channel, hchannel, rfl⟩ := hi
  obtain ⟨m, hm⟩ := channel.received_deliver (sends.map fun (a, gone) ↦ (a, gone i))
  refine ⟨channel, List.mem_of_getElem? hchannel, m, hm.trans ?_⟩
  rw [List.map_map]
  rfl

/-- Nobody gets anything exactly when no channel is open at the first send. -/
theorem map_received_deliverAll_cons {a : α} {gone : ℕ → Bool} {rest : List (α × (ℕ → Bool))}
    {channels : List (Channel α)} :
    (deliverAll ((a, gone) :: rest) channels).map Channel.received =
        channels.map Channel.received ↔
      ∀ (i : ℕ) (channel : Channel α), channels[i]? = some channel →
        ¬ (channel.close (gone i)).Open := by
  constructor
  · intro h i channel hi hopen
    have hat := congrArg (fun received ↦ received[i]?) h
    simp only [List.getElem?_map, getElem?_deliverAll, hi, Option.map_some, Option.some.injEq,
      List.map_cons] at hat
    obtain ⟨more, hmore⟩ := Channel.received_deliver_cons_of_open hopen
      (rest.map fun (a, gone) ↦ (a, gone i))
    rw [hmore] at hat
    simp at hat
  · intro h
    refine List.ext_getElem? fun i ↦ ?_
    rw [List.getElem?_map, List.getElem?_map, getElem?_deliverAll]
    rcases hi : channels[i]? with _ | channel
    · rfl
    · rw [Option.map_some, Option.map_some, List.map_cons,
        Channel.received_deliver_cons_of_not_open (h i channel hi), Option.map_some]

end Broadcast
