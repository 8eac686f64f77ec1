import MToolkit.Efficient.AnnularCache

/-!
# The annular cache as a queue of bytes

However often the counters have wrapped around, the cache is a bounded queue: what has been
pushed is what has been popped followed by what is held, and no copy leaves the block
(`MToolkit.AnnularCache.bounded_fifo`). The counters are the numbers of bytes pushed and
popped, modulo `2 ^ 32` (`MToolkit.AnnularCache.Fifo`), and the two copies of a `Push` and of
a `Pop` are those of a ring buffer, because the length of the block divides `2 ^ 32`.
-/

namespace MToolkit

namespace AnnularCache

open Lts Memory

variable {k : ℕ} {s s' : Stream}

theorem toNat_compareMin (a b : UInt32) : (compareMin a b).toNat = min a.toNat b.toNat := by
  rw [compareMin]
  split
  · next h => exact (min_eq_right (Nat.le_of_lt (UInt32.lt_iff_toNat_lt.mp h))).symm
  · next h =>
    refine (min_eq_left ?_).symm
    exact Nat.le_of_not_lt fun hlt => h (UInt32.lt_iff_toNat_lt.mpr hlt)

/-- The mask takes the remainder. -/
theorem toNat_and_sub_one {size : UInt32} (hsize : size.toNat = 2 ^ k) (x : UInt32) :
    (x &&& (size - 1)).toNat = x.toNat % 2 ^ k := by
  have hone : (1 : UInt32) ≤ size := by
    rw [UInt32.le_iff_toNat_le, hsize, UInt32.toNat_one]
    exact Nat.one_le_two_pow
  rw [UInt32.toNat_and, UInt32.toNat_sub_of_le _ _ hone, hsize, UInt32.toNat_one,
    Nat.and_two_pow_sub_one_eq_mod]

/-- **The cache is a queue.** -/
structure Fifo (k : ℕ) (s : Stream) : Prop where
  size : s.cache.size.toNat = 2 ^ k
  length : s.cache.cache.length = 2 ^ k
  /-- The counters count. -/
  w : s.cache.w.toNat = s.accepted.length % 2 ^ 32
  r : s.cache.r.toNat = s.popped.length % 2 ^ 32
  /-- What has been popped is what was pushed first. -/
  first : s.accepted.take s.popped.length = s.popped
  /-- What has not been popped is in the block. -/
  window : Ring.Window s.cache.cache s.accepted s.popped.length

theorem fifo_init {size : UInt32} {cache : List UInt8} (hsize : size.toNat = 2 ^ k)
    (hcache : cache.length = 2 ^ k) : Fifo k (Stream.init size cache) where
  size := hsize
  length := hcache
  w := rfl
  r := rfl
  first := rfl
  window := ⟨Nat.zero_le _, fun _ _ h => absurd h (Nat.not_lt_zero _)⟩

namespace Fifo

theorem popped_le (h : Fifo k s) : s.popped.length ≤ s.accepted.length := by
  rw [← h.first, List.length_take]
  omega

theorem accepted_le (h : Fifo k s) : s.accepted.length ≤ s.popped.length + 2 ^ k :=
  h.length ▸ h.window.fits

/-- The size is a power of two of 32 bits. -/
theorem lt (h : Fifo k s) : 2 ^ k < 2 ^ 32 := h.size ▸ s.cache.size.toNat_lt

theorem dvd (h : Fifo k s) : 2 ^ k ∣ 2 ^ 32 :=
  Nat.pow_dvd_pow 2 ((Nat.pow_lt_pow_iff_right (by decide)).mp h.lt).le

/-- **The difference of the counters**, which may both have wrapped around. -/
theorem toNat_sub (h : Fifo k s) :
    (s.cache.w - s.cache.r).toNat = s.accepted.length - s.popped.length := by
  have hle := h.popped_le
  have hfits := h.accepted_le
  have hlt := h.lt
  rw [UInt32.toNat_sub, h.w, h.r]
  omega

/-- The offset of a counter in the block. -/
theorem offset (h : Fifo k s) {x : UInt32} {n : ℕ} (hx : x.toNat = n % 2 ^ 32) :
    (x &&& (s.cache.size - 1)).toNat = n % s.cache.cache.length := by
  rw [toNat_and_sub_one h.size, hx, h.length, Nat.mod_mod_of_dvd n h.dvd]

/-- The space up to the end of the block. -/
theorem toEnd (h : Fifo k s) {x : UInt32} {n : ℕ} (hx : x.toNat = n % 2 ^ 32) :
    (s.cache.size - (x &&& (s.cache.size - 1))).toNat =
      s.cache.cache.length - n % s.cache.cache.length := by
  have hoff := h.offset hx
  have hlt : n % s.cache.cache.length < s.cache.cache.length :=
    Nat.mod_lt _ (h.length ▸ Nat.two_pow_pos k)
  have hle : x &&& (s.cache.size - 1) ≤ s.cache.size := by
    rw [UInt32.le_iff_toNat_le, hoff, h.size, ← h.length]
    exact hlt.le
  rw [UInt32.toNat_sub_of_le _ _ hle, hoff, h.size, h.length]

/-- The bytes held are those pushed and not popped. -/
theorem held_eq (h : Fifo k s) : s.cache.held = s.accepted.drop s.popped.length := by
  have hle := h.popped_le
  have hcell : ∀ i, i < s.accepted.length - s.popped.length →
      s.cache.cache[((s.cache.r + UInt32.ofNat i) &&& (s.cache.size - 1)).toNat]? =
        s.accepted[s.popped.length + i]? := by
    intro i hi
    have hindex : (s.cache.r + UInt32.ofNat i).toNat = (s.popped.length + i) % 2 ^ 32 := by
      rw [UInt32.toNat_add, h.r, UInt32.toNat_ofNat', Nat.add_mod_mod, Nat.mod_add_mod]
    rw [h.offset hindex]
    exact h.window.kept _ (Nat.le_add_right _ _) (by omega)
  have hread : s.cache.held =
      (List.range (s.accepted.length - s.popped.length)).filterMap fun i =>
        s.accepted[s.popped.length + i]? := by
    rw [held, h.toNat_sub]
    exact List.filterMap_congr fun i hi => hcell i (List.mem_range.mp hi)
  rw [hread, filterMap_range_getElem?, ← List.length_drop, List.take_length]

theorem length_held (h : Fifo k s) :
    s.cache.held.length = s.accepted.length - s.popped.length := by
  rw [h.held_eq, List.length_drop]

/-- **A `Push`** stores as much as there is room for. -/
theorem push (h : Fifo k s) {data : List UInt8} {len : UInt32} (hlen : len.toNat ≤ data.length) :
    ∃ n cache, s.cache.push data len = some (n, cache) ∧
      n.toNat = min len.toNat (2 ^ k - s.cache.held.length) ∧
      Fifo k { s with cache := cache, accepted := s.accepted ++ data.take n.toNat } := by
  have hle := h.popped_le
  have hfits := h.accepted_le
  -- the room the code computes from its counters is the room there is
  set n := compareMin len (s.cache.size - (s.cache.w - s.cache.r)) with hn
  have hroom : (s.cache.size - (s.cache.w - s.cache.r)).toNat = 2 ^ k - s.cache.held.length := by
    have hsub : s.cache.w - s.cache.r ≤ s.cache.size := by
      rw [UInt32.le_iff_toNat_le, h.toNat_sub, h.size]
      omega
    rw [UInt32.toNat_sub_of_le _ _ hsub, h.size, h.toNat_sub, h.length_held]
  have hnat : n.toNat = min len.toNat (2 ^ k - s.cache.held.length) := by
    rw [hn, toNat_compareMin, hroom]
  rw [h.length_held] at hnat
  have hitems : (data.take n.toNat).length = n.toNat := List.length_take_of_le (by omega)
  have hpos : 0 < s.cache.cache.length := h.length ▸ Nat.two_pow_pos k
  have hwriteroom : s.accepted.length + (data.take n.toNat).length ≤
      s.popped.length + s.cache.cache.length := by
    rw [hitems, h.length]
    omega
  obtain ⟨cache, hwrite, hlength, hwindow⟩ := h.window.write hpos hle hwriteroom
  -- the first of the two copies ends at the end of the block
  set l := compareMin n (s.cache.size - (s.cache.w &&& (s.cache.size - 1))) with hl
  have hlnat : l.toNat = min (data.take n.toNat).length
      (s.cache.cache.length - s.accepted.length % s.cache.cache.length) := by
    rw [hl, toNat_compareMin, h.toEnd h.w, hitems]
  have hln : l.toNat ≤ n.toNat := by omega
  refine ⟨n, { s.cache with w := s.cache.w + n, cache := cache }, ?_, ?_, ?_⟩
  · -- the copies are those of the ring
    have hfirst : load data 0 l.toNat = some ((data.take n.toNat).take l.toNat) := by
      rw [load_of_le (by omega), List.drop_zero, List.take_take, min_eq_left hln]
    have hsecond : load data l.toNat (n - l).toNat = some ((data.take n.toNat).drop l.toNat) := by
      rw [UInt32.toNat_sub_of_le _ _ (UInt32.le_iff_toNat_le.mpr hln), load_of_le (by omega),
        List.drop_take]
    rw [Ring.write, ← hlnat] at hwrite
    simp only [AnnularCache.push, ← hn, ← hl, hfirst, hsecond, Option.bind_eq_bind,
      Option.bind_some, h.offset h.w]
    rw [Option.bind_eq_bind, Option.bind_eq_some_iff] at hwrite
    obtain ⟨mem, hstore, hstore'⟩ := hwrite
    rw [hstore, Option.bind_some, hstore']
    rfl
  · rw [hnat, h.length_held]
  · refine ⟨h.size, hlength.trans h.length, ?_, h.r, ?_, hwindow⟩
    · simp only [UInt32.toNat_add, h.w, List.length_append, hitems, Nat.mod_add_mod]
    · simp only [List.take_append_of_le_length hle, h.first]

/-- **A `Pop`** yields the bytes that have been held longest. -/
theorem pop (h : Fifo k s) {data : List UInt8} {len : UInt32} (hlen : len.toNat ≤ data.length) :
    ∃ n cache, s.cache.pop data len =
        some (n, s.cache.held.take n.toNat ++ data.drop n.toNat, cache) ∧
      n.toNat = min len.toNat s.cache.held.length ∧
      Fifo k { s with cache := cache, popped := s.popped ++ s.cache.held.take n.toNat } := by
  have hle := h.popped_le
  set n := compareMin len (s.cache.w - s.cache.r) with hn
  have hnat : n.toNat = min len.toNat s.cache.held.length := by
    rw [hn, toNat_compareMin, h.toNat_sub, h.length_held]
  have hheld : (s.cache.held.take n.toNat).length = n.toNat := List.length_take_of_le (by omega)
  have hlength := h.length_held
  have hpos : 0 < s.cache.cache.length := h.length ▸ Nat.two_pow_pos k
  have hread := h.window.read hpos (n := n.toNat) (by omega)
  rw [← h.held_eq] at hread
  -- the first of the two copies ends at the end of the block
  set l := compareMin n (s.cache.size - (s.cache.r &&& (s.cache.size - 1))) with hl
  have hlnat : l.toNat = min n.toNat
      (s.cache.cache.length - s.popped.length % s.cache.cache.length) := by
    rw [hl, toNat_compareMin, h.toEnd h.r]
  have hln : l.toNat ≤ n.toNat := by omega
  refine ⟨n, { s.cache with r := s.cache.r + n }, ?_, hnat, ?_⟩
  · -- the copies are those of the ring
    rw [Ring.read, ← hlnat, Option.bind_eq_bind, Option.bind_eq_some_iff] at hread
    obtain ⟨first, hfirst, hread⟩ := hread
    obtain ⟨second, hsecond, hread⟩ := Option.bind_eq_some_iff.mp hread
    have hsplit : first ++ second = s.cache.held.take n.toNat := Option.some.inj hread
    have hfirstlen := length_of_load hfirst
    have hsecondlen := length_of_load hsecond
    have hstore : store data 0 first = some (overwrite data 0 first) := store_of_le (by omega)
    have hdata : (overwrite data 0 first).length = data.length := length_overwrite (by omega)
    have hstore' : store (overwrite data 0 first) l.toNat second =
        some (s.cache.held.take n.toNat ++ data.drop n.toNat) := by
      have hboth := overwrite_overwrite (Nat.zero_le data.length) first second
      rw [Nat.zero_add, hfirstlen, hsplit, overwrite_zero _ (List.take _ _), hheld] at hboth
      rw [store_of_le (by omega), hboth]
    simp only [AnnularCache.pop, ← hn, ← hl, Option.bind_eq_bind, h.offset h.r, hfirst,
      Option.bind_some, hstore, UInt32.toNat_sub_of_le _ _ (UInt32.le_iff_toNat_le.mpr hln),
      hsecond, hstore']
    rfl
  · refine ⟨h.size, h.length, h.w, ?_, ?_, ?_⟩
    · simp only [UInt32.toNat_add, h.r, List.length_append, hheld, Nat.mod_add_mod]
    · rw [List.length_append, hheld, List.take_add, h.first, h.held_eq]
    · rw [List.length_append, hheld]
      exact h.window.advance n.toNat

end Fifo

/-- **Every call** keeps the cache a queue. -/
theorem Step.fifo {l : Label} (hstep : Step s l s') (h : Fifo k s) : Fifo k s' := by
  cases hstep with
  | push hlen hpush =>
    obtain ⟨n, cache, hpush', -, hfifo⟩ := h.push hlen
    obtain ⟨rfl, rfl⟩ := Prod.mk.inj (Option.some.inj (hpush.symm.trans hpush'))
    exact hfifo
  | pop hlen hpop =>
    obtain ⟨n, cache, hpop', hn, hfifo⟩ := h.pop hlen
    obtain ⟨rfl, hrest⟩ := Prod.mk.inj (Option.some.inj (hpop.symm.trans hpop'))
    obtain ⟨rfl, rfl⟩ := Prod.mk.inj hrest
    rwa [List.take_left' (List.length_take_of_le (by omega))]

/-- **A bounded queue of bytes.** Take a cache whose size is a power of two, over a block of
that length, and any sequence of `Push`es and `Pop`s with any lengths and contents. The bytes
pushed are those popped followed by those held, of which there are no more than the size. Every
further call returns, so that none of its copies leaves the block: a `Push` stores and returns
the length given or the room there is, whichever is less, and a `Pop` the length given or what
is held, and fills the buffer of the caller with the bytes that have been held longest. -/
theorem bounded_fifo {size : UInt32} {cache : List UInt8} (hsize : size.toNat = 2 ^ k)
    (hcache : cache.length = 2 ^ k) {ls : List Label} (hrun : Run Step (.init size cache) ls s) :
    s.accepted = s.popped ++ s.cache.held ∧ s.cache.held.length ≤ 2 ^ k ∧
      (∀ (data : List UInt8) (len : UInt32), len.toNat ≤ data.length →
        ∃ n c, s.cache.push data len = some (n, c) ∧
          n.toNat = min len.toNat (2 ^ k - s.cache.held.length) ∧
          c.held = s.cache.held ++ data.take n.toNat) ∧
      ∀ (data : List UInt8) (len : UInt32), len.toNat ≤ data.length →
        ∃ n c, s.cache.pop data len =
            some (n, s.cache.held.take n.toNat ++ data.drop n.toNat, c) ∧
          n.toNat = min len.toNat s.cache.held.length ∧ c.held = s.cache.held.drop n.toNat := by
  have h : Fifo k s := hrun.invariant (fun h hstep => hstep.fifo h) (fifo_init hsize hcache)
  have hle := h.popped_le
  refine ⟨?_, ?_, fun data len hlen => ?_, fun data len hlen => ?_⟩
  · have hsplit := List.take_append_drop s.popped.length s.accepted
    rw [h.first] at hsplit
    rw [h.held_eq, hsplit]
  · have hfits := h.accepted_le
    rw [h.length_held]
    omega
  · obtain ⟨n, c, hpush, hn, hfifo⟩ := h.push hlen
    refine ⟨n, c, hpush, hn, ?_⟩
    rw [hfifo.held_eq, List.drop_append_of_le_length hle, h.held_eq]
  · obtain ⟨n, c, hpop, hn, hfifo⟩ := h.pop hlen
    refine ⟨n, c, hpop, hn, ?_⟩
    rw [hfifo.held_eq, List.length_append, List.length_take_of_le (by omega), h.held_eq,
      List.drop_drop]

/-- A cache of four bytes: the second `Push` goes over the end of the block and fills it. -/
theorem bounded_fifo_full :
    ∃ s : Stream,
      Run Step (.init 4 [0, 0, 0, 0])
        [.push [1, 2, 3] 3, .pop [0, 0] 2, .push [4, 5, 6, 7] 4] s ∧
        s.cache.cache = [5, 6, 3, 4] ∧ s.accepted = s.popped ++ s.cache.held ∧
        s.cache.held.length ≤ 2 ^ 2 := by
  have hrun : ∃ s : Stream,
      Run Step (.init 4 [0, 0, 0, 0])
        [.push [1, 2, 3] 3, .pop [0, 0] 2, .push [4, 5, 6, 7] 4] s ∧
        s.cache.cache = [5, 6, 3, 4] :=
    ⟨_, .cons (.push (by decide) rfl) (.cons (.pop (by decide) rfl)
      (.single (.push (by decide) rfl))), rfl⟩
  obtain ⟨s, hrun, hcells⟩ := hrun
  obtain ⟨hfirst, hheld, -⟩ := bounded_fifo (k := 2) rfl rfl hrun
  exact ⟨s, hrun, hcells, hfirst, hheld⟩

end AnnularCache

end MToolkit
