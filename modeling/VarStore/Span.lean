/- # VarStore.Span — byte ranges of the program text

A `Span` is the pair of byte positions at which a token begins and ends; nothing
forces the first to lie before the second.  A `Region` is what a label points
at: a place and a number of bytes.  `Span.region` turns one into the other, a
reversed span becoming an empty region.

`Span.stop_region` says that the region of a span ends at the later of its two
positions, so the end of a region made from a span is again a 64-bit position.
-/

namespace VarStore

set_option autoImplicit false

/-- Byte positions of the first byte of a token and of the byte after it. -/
structure Span where
  start : UInt64 := 0
  stop : UInt64 := 0
  deriving DecidableEq, Repr, Inhabited

/-- A stretch of `length` bytes that begins at `offset`. -/
structure Region where
  offset : UInt64
  length : UInt64
  deriving DecidableEq, Repr, Inhabited

namespace Region

/-- The position after the last byte, which need not be a 64-bit position. -/
def stop (r : Region) : Nat :=
  r.offset.toNat + r.length.toNat

end Region

namespace Span

/-- Number of bytes covered; a reversed span covers none. -/
def length (s : Span) : UInt64 :=
  if s.stop ≤ s.start then 0 else s.stop - s.start

def isEmpty (s : Span) : Bool :=
  s.length == 0

def region (s : Span) : Region where
  offset := s.start
  length := s.length

theorem toNat_length (s : Span) : s.length.toNat = s.stop.toNat - s.start.toNat := by
  unfold length
  split
  · rename_i h
    have := UInt64.le_iff_toNat_le.1 h
    simp only [UInt64.toNat_zero]
    omega
  · rename_i h
    exact UInt64.toNat_sub_of_le _ _ (UInt64.le_of_lt (UInt64.not_le.1 h))

theorem isEmpty_iff (s : Span) : s.isEmpty = true ↔ s.stop ≤ s.start := by
  have h := toNat_length s
  rw [isEmpty, beq_iff_eq, ← UInt64.toNat_inj, h, UInt64.toNat_zero, UInt64.le_iff_toNat_le]
  omega

@[simp] theorem offset_region (s : Span) : s.region.offset = s.start := rfl

@[simp] theorem length_region (s : Span) : s.region.length = s.length := rfl

theorem stop_region (s : Span) : s.region.stop = max s.start.toNat s.stop.toNat := by
  simp only [Region.stop, offset_region, length_region, toNat_length]
  omega

theorem stop_region_lt (s : Span) : s.region.stop < UInt64.size := by
  have h : s.start.toNat < UInt64.size := s.start.toNat_lt
  have h' : s.stop.toNat < UInt64.size := s.stop.toNat_lt
  rw [stop_region]
  omega

end Span

end VarStore
