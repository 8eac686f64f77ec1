import Mathlib.Data.Set.Insert
import MToolkit.DBus.Client
import MToolkit.Library.Lts

/-!
# Which subscriptions there are

Four names put together do not tell where one ends and the next begins, so two signals with
names of the grammar can have one key. The second to be subscribed to is then lost, although
the call says that it is there, and ending it ends the first. Each call does what it says as
long as no other signal with its key is live (`DBusClient.Ledger.exact_iff`).
-/

namespace MToolkit

namespace DBusClient

/-! ### The calls and what they say -/

/-- A call of one of the two methods. -/
inductive Call where
  | subscribeSignal (signal : DBusSignal) (registers : Bool) : Call
  | unSubscribeSignal (signal : DBusSignal) : Call

/-- A client with the signals that, as the calls have said, are subscribed to. -/
structure Ledger where
  client : DBusClient
  subscribed : Set DBusSignal

namespace Ledger

/-- A client just constructed. -/
def init : Ledger where
  client := .init
  subscribed := ∅

/-- A call, and what it says. -/
def call (s : Ledger) : Call → Ledger
  | .subscribeSignal signal registers =>
    { client := (s.client.subscribeSignal signal registers).2
      subscribed :=
        if (s.client.subscribeSignal signal registers).1 then insert signal s.subscribed
        else s.subscribed }
  | .unSubscribeSignal signal =>
    { client := (s.client.unSubscribeSignal signal).2
      subscribed :=
        if (s.client.unSubscribeSignal signal).1 then s.subscribed \ {signal}
        else s.subscribed }

/-- **What is live is what the calls have said.** -/
def Exact (s : Ledger) : Prop := ∀ t, s.client.Live t ↔ t ∈ s.subscribed

/-- The call ends no subscription to another signal. -/
def Spares (s : Ledger) : Call → Prop
  | .subscribeSignal _ _ => True
  | .unSubscribeSignal signal =>
    ∀ t, t ≠ signal → s.client.Live t → (s.client.unSubscribeSignal signal).2.Live t

/-- No other signal with the key of the call is live. -/
def Alone (s : Ledger) : Call → Prop
  | .subscribeSignal signal registers =>
    registers = true → ∀ t, s.client.Live t → t.id = signal.id → t = signal
  | .unSubscribeSignal signal => ∀ t, s.client.Live t → t.id = signal.id → t = signal

variable {s : Ledger}

/-- The calls keep every object under the key of its signal. -/
theorem keyed_call (s : Ledger) (c : Call) (h : s.client.Keyed) : (s.call c).client.Keyed := by
  cases c with
  | subscribeSignal signal registers => exact h.subscribeSignal signal registers
  | unSubscribeSignal signal => exact h.unSubscribeSignal signal

/-! ### One call -/

/-- Where another signal has the key, the condition fails, and where none has it, it holds. -/
theorem alone_iff (h : s.client.Keyed) {signal : DBusSignal} :
    (∀ t, s.client.Live t → t.id = signal.id → t = signal) ↔
      ∀ t, s.client.proxy signal.id = some t → t = signal := by
  constructor
  · intro hall t ht
    exact hall t ⟨_, ht⟩ (h _ t ht).symm
  · intro hall t ht hid
    rw [h.live_iff, hid] at ht
    exact hall t ht

/-- **Subscribing** says what it does just when no other signal has the key. -/
theorem exact_subscribe_iff (h : s.client.Keyed) (hs : s.Exact) (signal : DBusSignal)
    (registers : Bool) :
    (s.call (.subscribeSignal signal registers)).Exact ↔
      s.Alone (.subscribeSignal signal registers) := by
  cases registers with
  | false => exact iff_of_true hs (fun hfalse => absurd hfalse Bool.false_ne_true)
  | true =>
    rw [Alone, forall_prop_of_true rfl, alone_iff h]
    have hlive : ∀ t, (s.call (.subscribeSignal signal true)).client.Live t ↔
        PartialMap.insert s.client.proxy signal.id signal t.id = some t := fun t =>
      (h.subscribeSignal signal true).live_iff
    have hmem : ∀ t, t ∈ (s.call (.subscribeSignal signal true)).subscribed ↔
        t = signal ∨ s.client.Live t := by
      intro t
      rw [hs t]
      exact Set.mem_insert_iff
    constructor
    · -- the signal is live afterwards, so it is what the key finds
      intro hexact t ht
      have hfind := (hlive signal).mp ((hexact signal).mpr ((hmem signal).mpr (.inl rfl)))
      rw [PartialMap.insert_of_some ht, ht] at hfind
      exact Option.some.inj hfind
    · intro hall t
      rw [hlive, hmem, h.live_iff]
      cases hfound : s.client.proxy signal.id with
      | some found =>
        obtain rfl := hall found hfound
        rw [PartialMap.insert_of_some hfound]
        refine ⟨.inr, ?_⟩
        rintro (rfl | ht)
        · exact hfound
        · exact ht
      | none =>
        rw [PartialMap.insert_of_none hfound, PartialMap.update_eq_some]
        by_cases hid : t.id = signal.id
        · simp [hid, hfound]
        · have hne : t ≠ signal := fun ht => hid (congrArg DBusSignal.id ht)
          simp [hid, hne]

/-- **Unsubscribing** says what it does just when no other signal has the key. -/
theorem exact_unSubscribe_iff (h : s.client.Keyed) (hs : s.Exact) (signal : DBusSignal) :
    (s.call (.unSubscribeSignal signal)).Exact ↔ s.Alone (.unSubscribeSignal signal) := by
  rw [Alone, alone_iff h]
  cases hfound : s.client.proxy signal.id with
  | none =>
    have hcall : s.call (.unSubscribeSignal signal) = s := by
      simp [call, DBusClient.unSubscribeSignal, hfound]
    rw [hcall]
    exact iff_of_true hs (fun t ht => absurd ht (Option.some_ne_none t).symm)
  | some found =>
    have hlive : ∀ t, (s.call (.unSubscribeSignal signal)).client.Live t ↔
        t.id ≠ signal.id ∧ s.client.Live t := by
      intro t
      rw [call, (h.unSubscribeSignal signal).live_iff, h.live_iff, DBusClient.unSubscribeSignal,
        hfound, Option.isSome_some, if_pos rfl]
      exact PartialMap.erase_eq_some
    have hmem : ∀ t, t ∈ (s.call (.unSubscribeSignal signal)).subscribed ↔
        s.client.Live t ∧ t ≠ signal := by
      intro t
      simp [call, DBusClient.unSubscribeSignal, hfound, hs t]
    constructor
    · -- what the key has found is not live any more
      rintro hexact t ht
      obtain rfl := Option.some.inj ht
      by_contra hne
      have hstill := (hexact found).mpr ((hmem found).mpr ⟨⟨_, hfound⟩, hne⟩)
      exact ((hlive found).mp hstill).1 (h _ found hfound).symm
    · intro hall t
      rw [hmem, hlive]
      constructor
      · rintro ⟨hid, ht⟩
        exact ⟨ht, fun heq => hid (congrArg DBusSignal.id heq)⟩
      · rintro ⟨ht, hne⟩
        refine ⟨fun hid => hne ?_, ht⟩
        rw [h.live_iff, hid, hfound] at ht
        rw [← Option.some.inj ht]
        exact hall found rfl

/-- A call that is alone with its key ends no other subscription. -/
theorem Alone.spares (h : s.client.Keyed) {c : Call} (halone : s.Alone c) : s.Spares c := by
  cases c with
  | subscribeSignal signal registers => trivial
  | unSubscribeSignal signal =>
    intro t hne ht
    rw [(h.unSubscribeSignal signal).live_iff, DBusClient.unSubscribeSignal]
    split_ifs
    · have hid : t.id ≠ signal.id := fun hid => hne (halone t ht hid)
      exact PartialMap.erase_eq_some.mpr ⟨hid, h.live_iff.mp ht⟩
    · exact h.live_iff.mp ht

/-! ### Every sequence of calls -/

/-- **Subscriptions are independent** throughout a sequence of calls just when each is made
while no other signal with the same key is live. -/
theorem exact_iff (calls : List Call) :
    ((∀ s ∈ Lts.states call init calls, s.Exact) ∧
        ∀ p ∈ Lts.steps call init calls, p.1.Spares p.2) ↔
      ∀ p ∈ Lts.steps call init calls, p.1.Alone p.2 := by
  have hkeyed : ∀ s ∈ Lts.states call init calls, s.client.Keyed :=
    Lts.forall_states keyed_call calls keyed_init
  have hinit : init.client.Keyed ∧ init.Exact := by
    refine ⟨keyed_init, fun t => iff_of_false ?_ (Set.notMem_empty t)⟩
    rintro ⟨key, hkey⟩
    exact Option.some_ne_none t hkey.symm
  have hstep : ∀ (s : Ledger) (c : Call), s.client.Keyed ∧ s.Exact →
      ((s.call c).client.Keyed ∧ (s.call c).Exact ↔ s.Alone c) := by
    rintro s c ⟨h, hs⟩
    rw [and_iff_right (keyed_call s c h)]
    cases c with
    | subscribeSignal signal registers => exact exact_subscribe_iff h hs signal registers
    | unSubscribeSignal signal => exact exact_unSubscribe_iff h hs signal
  have hiff := Lts.states_iff_steps hstep calls hinit
  constructor
  · rintro ⟨hexact, -⟩
    exact hiff.mp fun s hs => ⟨hkeyed s hs, hexact s hs⟩
  · intro halone
    refine ⟨fun s hs => (hiff.mpr halone s hs).2, fun p hp => ?_⟩
    exact (halone p hp).spares (hkeyed p.1 (Lts.mem_states_of_mem_steps hp))

/-- The interface `c.d` of the object `/ab`. -/
def shortInterface : DBusSignal where
  serviceName := ['a', '.', 'b']
  objectPath := ['/', 'a', 'b']
  interfaceName := ['c', '.', 'd']
  signalName := ['S']

/-- The interface `bc.d` of the object `/a`. -/
def longInterface : DBusSignal where
  serviceName := ['a', '.', 'b']
  objectPath := ['/', 'a']
  interfaceName := ['b', 'c', '.', 'd']
  signalName := ['S']

/-- Two signals with one key: the second is not there after it has been subscribed to, and
ending it ends the first. -/
theorem not_exact :
    shortInterface.Valid ∧ longInterface.Valid ∧
      ¬((∀ s ∈ Lts.states call init [.subscribeSignal shortInterface true,
            .subscribeSignal longInterface true], s.Exact) ∧
          ∀ p ∈ Lts.steps call init [.subscribeSignal shortInterface true,
            .subscribeSignal longInterface true], p.1.Spares p.2) ∧
      ¬∀ p ∈ Lts.steps call init [.subscribeSignal shortInterface true,
            .unSubscribeSignal longInterface], p.1.Spares p.2 := by
  have hne : longInterface ≠ shortInterface := by decide
  have hkeyed := keyed_init.subscribeSignal shortInterface true
  refine ⟨by decide, by decide, ?_, ?_⟩
  · rintro ⟨hexact, -⟩
    have hlast := hexact _ (List.mem_cons_of_mem _ (List.mem_cons_of_mem _ List.mem_cons_self))
    have hlive := (hlast longInterface).mpr (Set.mem_insert _ _)
    exact hne (Option.some.inj ((hkeyed.subscribeSignal longInterface true).live_iff.mp hlive)).symm
  · intro hspares
    have hlast := hspares _ (List.mem_cons_of_mem _ List.mem_cons_self)
    have hlive := hlast shortInterface hne.symm ⟨shortInterface.id, by decide⟩
    exact absurd ((hkeyed.unSubscribeSignal longInterface).live_iff.mp hlive) (by decide)

end Ledger

end DBusClient

end MToolkit
