import Mathlib.Tactic.SplitIfs
import MToolkit.Library.PartialMap

/-!
# The D-Bus client

The subscriptions of the class `DBusClient` (`dbus/dbus_client.cpp`). A signal is subscribed to
by a proxy object of its own, and `proxy_` finds the object by a key that is the four names
put together. A subscription is there as long as its object is. What a handler does plays no
part, and neither do the method calls.
-/

namespace MToolkit

/-- The names that a signal is subscribed to by. -/
structure DBusSignal where
  serviceName : List Char
  objectPath : List Char
  interfaceName : List Char
  signalName : List Char
  deriving DecidableEq

namespace DBusSignal

/-- `signal_id` -/
def id (signal : DBusSignal) : List Char :=
  signal.serviceName ++ signal.objectPath ++ signal.interfaceName ++ signal.signalName

/-! ### The grammar of names -/

/-- An element of a name: letters, digits and the characters given, of which there is at least
one; a digit stands first only where it may. -/
def isElement (more : List Char) (digitFirst : Bool) (name : List Char) : Bool :=
  !name.isEmpty && name.all (fun c => c.isAlphanum || more.contains c) &&
    (digitFirst || !name.head?.any Char.isDigit)

/-- At least two elements, with dots between them. -/
def isDotted (more : List Char) (digitFirst : Bool) (name : List Char) : Bool :=
  2 ≤ (name.splitOn '.').length && (name.splitOn '.').all (isElement more digitFirst) &&
    name.length ≤ 255

/-- The name of a service: a unique name, after a colon, or one that was asked for. -/
def isServiceName : List Char → Bool
  | ':' :: name => isDotted ['_', '-'] true name
  | name => isDotted ['_', '-'] false name

/-- The path of an object. -/
def isObjectPath : List Char → Bool
  | ['/'] => true
  | '/' :: path => (path.splitOn '/').all (isElement ['_'] true)
  | _ => false

/-- The four names are those of the D-Bus grammar. -/
def Valid (signal : DBusSignal) : Prop :=
  isServiceName signal.serviceName ∧ isObjectPath signal.objectPath ∧
    isDotted ['_'] false signal.interfaceName ∧ isElement ['_'] false signal.signalName ∧
    signal.signalName.length ≤ 255

instance (signal : DBusSignal) : Decidable signal.Valid :=
  inferInstanceAs (Decidable (_ ∧ _ ∧ _ ∧ _ ∧ _))

end DBusSignal

/-- The fields of a `DBusClient`. -/
structure DBusClient where
  /-- `proxy_`: the signal that each object has been registered for. -/
  proxy : List Char → Option DBusSignal
  /-- `start_event_loop_` -/
  startEventLoop : Bool

namespace DBusClient

/-- A client without subscriptions. -/
def init : DBusClient where
  proxy _ := none
  startEventLoop := false

/-- `DBusClient::SubscribeSignal`, where `registers` is whether the registration of the handler
does not throw. That there is an object under the key already is not looked at, and the new one
is then lost at the end of the call. -/
def subscribeSignal (s : DBusClient) (signal : DBusSignal) (registers : Bool) : Bool × DBusClient :=
  let s := { s with startEventLoop := true }
  if registers then (true, { s with proxy := PartialMap.insert s.proxy signal.id signal })
  else (false, s)

/-- `DBusClient::UnSubscribeSignal` -/
def unSubscribeSignal (s : DBusClient) (signal : DBusSignal) : Bool × DBusClient :=
  if (s.proxy signal.id).isSome then
    (true, { s with proxy := PartialMap.erase s.proxy signal.id })
  else (false, s)

/-- A subscription is live while its object is there. -/
def Live (s : DBusClient) (signal : DBusSignal) : Prop := ∃ key, s.proxy key = some signal

/-- Every object is under the key of its signal. -/
def Keyed (s : DBusClient) : Prop := ∀ key signal, s.proxy key = some signal → key = signal.id

variable {s : DBusClient} {signal : DBusSignal}

/-- A live subscription is found by its key. -/
theorem Keyed.live_iff (h : s.Keyed) : s.Live signal ↔ s.proxy signal.id = some signal := by
  constructor
  · rintro ⟨key, hkey⟩
    rwa [h key signal hkey] at hkey
  · exact fun hkey => ⟨signal.id, hkey⟩

theorem keyed_init : init.Keyed := fun _ _ h => absurd h (Option.some_ne_none _).symm

theorem Keyed.subscribeSignal (h : s.Keyed) (signal : DBusSignal) (registers : Bool) :
    (s.subscribeSignal signal registers).2.Keyed := by
  rw [DBusClient.subscribeSignal]
  split_ifs
  · intro key other hkey
    dsimp only at hkey
    cases hfound : s.proxy signal.id with
    | some found =>
      rw [PartialMap.insert_of_some hfound] at hkey
      exact h key other hkey
    | none =>
      rw [PartialMap.insert_of_none hfound, PartialMap.update_eq_some] at hkey
      rcases hkey with ⟨rfl, rfl⟩ | ⟨-, hkey⟩
      · rfl
      · exact h key other hkey
  · exact h

theorem Keyed.unSubscribeSignal (h : s.Keyed) (signal : DBusSignal) :
    (s.unSubscribeSignal signal).2.Keyed := by
  rw [DBusClient.unSubscribeSignal]
  split_ifs
  · exact fun key other hkey => h key other (PartialMap.erase_eq_some.mp hkey).2
  · exact h

end DBusClient

end MToolkit
