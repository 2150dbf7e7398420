import Mathlib.Algebra.Ring.Nat
import Mathlib.Tactic.Common

/-! # Hashing

A `BuildHasher` is deterministic: it maps what is written to the hasher to the finished hash. What a
key writes is its `Hash` implementation. The finished hash goes through `mix64`. -/

namespace Poise.Core

/-- One call on a `Hasher`. -/
inductive Write
  | u8 (value : UInt8)
  | u64 (value : UInt64)
  | bytes (value : List UInt8)
deriving DecidableEq, Repr

/-- `BuildHasher`: `build_hasher`, the writes in order, `finish`. -/
structure BuildHasher where
  finish : List Write → UInt64

/-- The little-endian bytes of a `u64`. -/
def leBytes (value : UInt64) : List UInt8 :=
  (List.range 8).map fun i => (value >>> (8 * i).toUInt64).toUInt8

/-- The bytes `Fnv1a64` makes of a call. -/
def Write.toBytes : Write → List UInt8
  | .u8 value => [value]
  | .u64 value => leBytes value
  | .bytes value => value

/-- `FnvBuildHasher`: `Fnv1a64` from its offset basis. -/
def fnvBuildHasher : BuildHasher where
  finish writes := (writes.flatMap Write.toBytes).foldl
    (fun hash byte => (hash ^^^ byte.toUInt64) * 0x00000100000001b3) 0xcbf29ce484222325

/-- `Hash`: what a value writes. -/
class RustHash (α : Type*) where
  writes : α → List Write

instance : RustHash UInt64 := ⟨fun value => [.u64 value]⟩

/-- `mix64`. -/
def mix64 (value : UInt64) : UInt64 :=
  let value := (value ^^^ (value >>> 30)) * 0xbf58476d1ce4e5b9
  let value := (value ^^^ (value >>> 27)) * 0x94d049bb133111eb
  value ^^^ (value >>> 31)

/-- The hash of a list of writes, as the policies use it. -/
def BuildHasher.mixed (hashBuilder : BuildHasher) (writes : List Write) : ℕ :=
  (mix64 (hashBuilder.finish writes)).toNat

/-- `rendezvous_hash`. -/
def rendezvousHash {Context Id : Type*} [RustHash Context] [RustHash Id]
    (hashBuilder : BuildHasher) (context : Context) (identity : Id) : ℕ :=
  hashBuilder.mixed
    ([.u8 0] ++ RustHash.writes context ++ [.u8 1] ++ RustHash.writes identity)

example : fnvBuildHasher.finish [.bytes [104, 101, 108, 108, 111]] = 0xa430d84680aabd0b := by decide

end Poise.Core
