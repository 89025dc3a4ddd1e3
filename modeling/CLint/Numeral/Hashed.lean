namespace CLint

-- Where a number is looked for in a set: a place, and what is left of the word that led there.
structure Probe where
  place : Fin 8
  rest : Nat

namespace Probe

-- The word of 64 bits that stands for a number: what a division by the greatest number of 61 bits
-- leaves. No number has the word of -1.
def word (n : Int) : Nat :=
  let r := n.tmod 0x1fffffffffffffff
  ((if r = -1 then -2 else r) % 0x10000000000000000).toNat

def first (n : Int) : Probe :=
  ⟨Fin.ofNat 8 (word n), word n⟩

def next (p : Probe) : Probe :=
  ⟨Fin.ofNat 8 (5 * p.place + 1 + p.rest / 32), p.rest / 32⟩

-- The place with those of the following probes, `count` in all.
def places (p : Probe) : Nat → List (Fin 8)
  | 0 => []
  | count + 1 => p.place :: p.next.places count

end Probe

-- A set of a few numbers, each at a place of its own. With more than four numbers a set would need
-- more places.
structure NumberSet where
  entry : Fin 8 → Option Int

namespace NumberSet

def empty : NumberSet :=
  ⟨fun _ => none⟩

-- The first place that `n` could be at. The word is used up behind thirteen probes, and from there
-- on eight probes come by every place.
def placeFor? (s : NumberSet) (n : Int) : Option (Fin 8) :=
  ((Probe.first n).places 21).find? fun p => (s.entry p).all (· = n)

def insert (s : NumberSet) (n : Int) : NumberSet :=
  match s.placeFor? n with
  | some p => ⟨fun q => if q = p then some n else s.entry q⟩
  | none => s

def ofList (ns : List Int) : NumberSet :=
  ns.foldl insert empty

-- The numbers in the order of their places, which is that in which the set is gone through.
def toList (s : NumberSet) : List Int :=
  (List.finRange 8).filterMap s.entry

end NumberSet

end CLint
