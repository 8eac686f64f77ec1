import MToolkit.Library.SortedMap

/-!
# The locked map

The class `LockMap` (`lock_container/lock_map.h`): a `std::map` with a mutex, each operation of
which is one critical section. The mutex is recursive, so that a thread that holds it by `GetMutex`
makes one critical section of several operations.

What the map is for is a partial function, from which an operation takes a key and to which it
adds one that is not there; every run of operations is one of these (`LockMap.after_refines`).
-/

namespace MToolkit

/-- A map with its mutex, between two critical sections. -/
structure LockMap (κ ν : Type) [LinearOrder κ] where
  /-- The `std::map`. -/
  value : SortedMap κ ν

namespace LockMap

variable {κ ν : Type} [LinearOrder κ]

def init : LockMap κ ν := ⟨.empty⟩

/-- `LockMap::Insert` -/
def insert (m : LockMap κ ν) (key : κ) (value : ν) : LockMap κ ν := ⟨m.value.insert key value⟩

/-- `LockMap::operator[]`, the value that the reference is to, which is a new one if there is
none. -/
def index [Inhabited ν] (m : LockMap κ ν) (key : κ) : ν × LockMap κ ν :=
  ((m.value.lookup key).getD default, ⟨m.value.insert key default⟩)

/-- `LockMap::IsExist` -/
def isExist (m : LockMap κ ν) (key : κ) : Bool := (m.value.lookup key).isSome

/-- `LockMap::Find`, with the variable for the value. -/
def find (m : LockMap κ ν) (key : κ) (value : ν) : Bool × ν :=
  match m.value.lookup key with
  | some found => (true, found)
  | none => (false, value)

/-- `LockMap::RemoveIf`: an entry that is removed leaves the iterators to the others alone. -/
def removeIf (m : LockMap κ ν) (p : κ × ν → Bool) : LockMap κ ν :=
  ⟨m.value.entries.foldl
    (fun value entry => if p entry then value.erase entry.1 else value) m.value⟩

/-- `LockMap::Remove` -/
def remove (m : LockMap κ ν) (key : κ) : Bool × LockMap κ ν :=
  ((m.value.lookup key).isSome, ⟨m.value.erase key⟩)

/-- `LockMap::ForEach`, with a function that changes something else. -/
def forEach {σ : Type} (m : LockMap κ ν) (cb : κ → ν → σ → σ) (s : σ) : σ :=
  m.value.entries.foldl (fun s entry => cb entry.1 entry.2 s) s

/-- `LockMap::Size` -/
def size (m : LockMap κ ν) : ℕ := m.value.entries.length

/-- `LockMap::Clear` -/
def clear (_ : LockMap κ ν) : LockMap κ ν := ⟨.empty⟩

/-- The entries that are removed one after the other. -/
theorem foldl_erase (p : κ × ν → Bool) (entries : List (κ × ν)) (value : SortedMap κ ν) (key : κ) :
    (entries.foldl (fun value entry => if p entry then value.erase entry.1 else value) value).lookup
        key =
      if entries.any (fun entry => p entry && entry.1 = key) then none else value.lookup key := by
  induction entries generalizing value with
  | nil => rfl
  | cons entry entries ih =>
    rw [List.foldl_cons, ih, List.any_cons]
    by_cases hkey : entry.1 = key
    · cases hp : p entry
      · rw [if_neg Bool.false_ne_true, Bool.false_and, Bool.false_or]
      · rw [if_pos rfl, SortedMap.lookup_erase, hkey, PartialMap.erase_self, decide_eq_true rfl,
          Bool.and_self, Bool.true_or, if_pos rfl, ite_self]
    · have hkeep : (if p entry then value.erase entry.1 else value).lookup key =
          value.lookup key := by
        split_ifs
        · rw [SortedMap.lookup_erase, PartialMap.erase_of_ne (Ne.symm hkey)]
        · rfl
      rw [hkeep, decide_eq_false hkey, Bool.and_false, Bool.false_or]

/-- **`RemoveIf` removes what meets the condition**, and leaves the rest. -/
theorem lookup_removeIf (m : LockMap κ ν) (p : κ × ν → Bool) (key : κ) :
    (m.removeIf p).value.lookup key =
      (m.value.lookup key).filter fun value => !p (key, value) := by
  rw [removeIf, foldl_erase]
  cases hvalue : m.value.lookup key with
  | none => simp
  | some value =>
    have hany : m.value.entries.any (fun entry => p entry && entry.1 = key) = p (key, value) := by
      rw [Bool.eq_iff_iff, List.any_eq_true]
      constructor
      · rintro ⟨⟨key, other⟩, hentry, hp⟩
        simp only [Bool.and_eq_true, decide_eq_true_eq] at hp
        obtain ⟨hp, rfl⟩ := hp
        rw [SortedMap.mem_entries_iff, hvalue, Option.some.injEq] at hentry
        rwa [hentry]
      · intro hp
        exact ⟨(key, value), m.value.mem_entries_iff.mpr hvalue, by simp [hp]⟩
    rw [hany]
    cases hp : p (key, value) <;> simp [Option.filter, hp]

/-- What `ForEach` calls its function with, in the order of the calls. -/
def visited (m : LockMap κ ν) : List (κ × ν) :=
  m.forEach (fun key value log => log ++ [(key, value)]) []

theorem visited_eq (m : LockMap κ ν) : m.visited = m.value.entries := by
  have hlog : ∀ (entries log : List (κ × ν)),
      entries.foldl (fun log entry => log ++ [(entry.1, entry.2)]) log = log ++ entries := by
    intro entries
    induction entries with
    | nil => exact fun log => (List.append_nil log).symm
    | cons entry entries ih => exact fun log => (ih _).trans (List.append_assoc log [entry] entries)
  exact (hlog m.value.entries []).trans (List.nil_append _)

/-! ### Runs of operations -/

/-- An operation that may change the map. -/
inductive Op (κ ν : Type) where
  | insert (key : κ) (value : ν) : Op κ ν
  /-- `map[key]`, which is read. -/
  | index (key : κ) : Op κ ν
  | removeIf (p : κ × ν → Bool) : Op κ ν
  | remove (key : κ) : Op κ ν
  | clear : Op κ ν

variable [Inhabited ν]

/-- The map after an operation. -/
def op (m : LockMap κ ν) : Op κ ν → LockMap κ ν
  | .insert key value => m.insert key value
  | .index key => (m.index key).2
  | .removeIf p => m.removeIf p
  | .remove key => (m.remove key).2
  | .clear => m.clear

/-- The partial function after an operation. -/
def Op.spec (f : κ → Option ν) : Op κ ν → κ → Option ν
  | .insert key value => PartialMap.insert f key value
  | .index key => PartialMap.insert f key default
  | .removeIf p => fun key => (f key).filter fun value => !p (key, value)
  | .remove key => PartialMap.erase f key
  | .clear => fun _ => none

/-- **One operation.** -/
theorem lookup_op (m : LockMap κ ν) (o : Op κ ν) :
    (m.op o).value.lookup = o.spec m.value.lookup := by
  cases o with
  | insert key value => exact m.value.lookup_insert key value
  | index key => exact m.value.lookup_insert key default
  | removeIf p => exact funext (m.lookup_removeIf p)
  | remove key => exact m.value.lookup_erase key
  | clear => rfl

/-- The map after operations by any threads, in the order of their critical sections. -/
def after (ops : List (Op κ ν)) : LockMap κ ν := ops.foldl op init

/-- The partial function after them. -/
def spec (ops : List (Op κ ν)) : κ → Option ν := ops.foldl Op.spec fun _ => none

theorem lookup_after (ops : List (Op κ ν)) : (after ops).value.lookup = spec ops := by
  induction ops using List.reverseRecOn with
  | nil => rfl
  | append_singleton ops o ih =>
    rw [after, spec, List.foldl_append, List.foldl_append]
    rw [after, spec] at ih
    rw [← ih]
    exact lookup_op _ o

/-- **A map is the partial function that its operations make**, whatever they are: it finds, in
each of its ways, what this gives, `ForEach` calls its function once for every key that has a value,
in the order of the keys, and the size is the number of these calls. -/
theorem after_refines (ops : List (Op κ ν)) :
    (∀ key value, (after ops).find key value =
        ((spec ops key).isSome, (spec ops key).getD value)) ∧
      (∀ key, (after ops).isExist key = (spec ops key).isSome) ∧
      (∀ key, ((after ops).index key).1 = (spec ops key).getD default) ∧
      (∀ key, ((after ops).remove key).1 = (spec ops key).isSome) ∧
      (∀ key value, (key, value) ∈ (after ops).visited ↔ spec ops key = some value) ∧
      ((after ops).visited.Pairwise fun p q => p.1 < q.1) ∧
      (after ops).size = (after ops).visited.length := by
  have hlookup : ∀ key, (after ops).value.lookup key = spec ops key := congrFun (lookup_after ops)
  refine ⟨fun key value => ?_, fun key => ?_, fun key => ?_, fun key => ?_, fun key value => ?_,
    ?_, ?_⟩
  · rw [find, hlookup]
    cases spec ops key <;> rfl
  · rw [isExist, hlookup]
  · rw [index, hlookup]
  · rw [remove, hlookup]
  · rw [visited_eq, SortedMap.mem_entries_iff, hlookup]
  · rw [visited_eq]
    exact (after ops).value.sorted
  · rw [visited_eq, size]

end LockMap

end MToolkit
