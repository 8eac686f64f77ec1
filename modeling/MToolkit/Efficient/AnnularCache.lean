import MToolkit.Library.Lts
import MToolkit.Library.Ring
import MToolkit.Utilities.Math

/-!
# The annular cache

The class `AnnularCache` (`efficient/annularcache.cpp`): a block of bytes used cyclically,
with two counters of 32 bits that are never reset and wrap around. `_w` counts the bytes
pushed and `_r` those popped, and a counter is made an offset into the block by a mask, which
takes the length of the block to be a power of two. A `memcpy` that would leave the block, or
the buffer of the caller, is no result.
-/

namespace MToolkit

open Memory

/-- The fields of an `AnnularCache`. -/
structure AnnularCache where
  /-- `_w` -/
  w : UInt32
  /-- `_r` -/
  r : UInt32
  /-- `_size` -/
  size : UInt32
  /-- `_cache` -/
  cache : List UInt8

/-- `MTOOKIT_COMPARE_MIN` -/
def compareMin (a b : UInt32) : UInt32 := if a > b then b else a

namespace AnnularCache

/-- A cache of the given size that holds nothing; `new` leaves the block as it finds it. -/
def init (size : UInt32) (cache : List UInt8) : AnnularCache where
  w := 0
  r := 0
  size := size
  cache := cache

/-- The constructor: the size it computes, where it is defined. -/
def capacity (size : UInt32) : Option UInt32 := Math.getRoundupPowerOfTwo size

/-- `AnnularCache::Push`: what it returns, and the cache. -/
def push (s : AnnularCache) (data : List UInt8) (len : UInt32) :
    Option (UInt32 × AnnularCache) := do
  let len := compareMin len (s.size - (s.w - s.r))
  let l := compareMin len (s.size - (s.w &&& (s.size - 1)))
  let first ← load data 0 l.toNat
  let cache ← store s.cache (s.w &&& (s.size - 1)).toNat first
  let second ← load data l.toNat (len - l).toNat
  let cache ← store cache 0 second
  return (len, { s with w := s.w + len, cache := cache })

/-- `AnnularCache::Pop`: what it returns, the buffer of the caller, and the cache. -/
def pop (s : AnnularCache) (data : List UInt8) (len : UInt32) :
    Option (UInt32 × List UInt8 × AnnularCache) := do
  let len := compareMin len (s.w - s.r)
  let l := compareMin len (s.size - (s.r &&& (s.size - 1)))
  let first ← load s.cache (s.r &&& (s.size - 1)).toNat l.toNat
  let data ← store data 0 first
  let second ← load s.cache 0 (len - l).toNat
  let data ← store data l.toNat second
  return (len, data, { s with r := s.r + len })

/-- The bytes held: those between the two counters. -/
def held (s : AnnularCache) : List UInt8 :=
  (List.range (s.w - s.r).toNat).filterMap fun i =>
    s.cache[((s.r + UInt32.ofNat i) &&& (s.size - 1)).toNat]?

/-! ### Runs -/

/-- A cache with what has passed through it. -/
structure Stream where
  cache : AnnularCache
  /-- The bytes that have been pushed. -/
  accepted : List UInt8
  /-- The bytes that have been popped. -/
  popped : List UInt8

/-- A call, with the buffer of the caller and the length given for it. -/
inductive Label where
  | push (data : List UInt8) (len : UInt32) : Label
  | pop (data : List UInt8) (len : UInt32) : Label

/-- The calls, where the buffer of the caller is as long as it says. -/
inductive Step : Stream → Label → Stream → Prop
  | push {s : Stream} {data : List UInt8} {len n : UInt32} {cache : AnnularCache} :
      len.toNat ≤ data.length → s.cache.push data len = some (n, cache) →
      Step s (.push data len)
        { s with cache := cache, accepted := s.accepted ++ data.take n.toNat }
  | pop {s : Stream} {data data' : List UInt8} {len n : UInt32} {cache : AnnularCache} :
      len.toNat ≤ data.length → s.cache.pop data len = some (n, data', cache) →
      Step s (.pop data len) { s with cache := cache, popped := s.popped ++ data'.take n.toNat }

/-- A stream through a cache just constructed. -/
def Stream.init (size : UInt32) (cache : List UInt8) : Stream where
  cache := .init size cache
  accepted := []
  popped := []

end AnnularCache

end MToolkit
