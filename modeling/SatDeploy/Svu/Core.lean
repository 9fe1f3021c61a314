import SatDeploy.Lib.Sha256
import SatDeploy.Lib.Spans
import SatDeploy.Lib.Splice

/-!
The self-verifying uploader core, `svu/ci_svu.c`: a reassembly buffer with one
coverage flag per byte and one SHA-256 per block. Sizes and counts are the C
code's 32-bit integers, held as naturals; `% 2 ^ 32` stands where the code's
arithmetic can leave 32 bits.
-/

namespace SatDeploy.Svu

open Lib

def hashLen : Nat := 32

inductive CiSvuStatus where
  | incomplete
  | completeVerified
  | corrupt
  deriving DecidableEq, Repr

structure CiSvu where
  total : Nat
  block : Nat
  nblocks : Nat
  coveredCount : Nat
  data : Bytes
  covered : List Bool
  expected : Bytes
  deriving DecidableEq, Repr

def ciSvuNblocks (totalSize blockSize : Nat) : Nat :=
  if totalSize = 0 ∨ blockSize = 0 then 0
  else (totalSize + blockSize - 1) % 2 ^ 32 / blockSize

/-- Where block `b` ends: `b * block + block`, clipped to `total`. -/
def blockEnd (total block b : Nat) : Nat :=
  if b * block + block > total then total else b * block + block

def hashBlock (src : Bytes) (total block b : Nat) : Bytes :=
  sha256 (slice src (b * block) (blockEnd total block b))

/-- The number of blocks and the concatenated digests written to
`digests_out`. -/
def ciSvuManifest (src : Bytes) (totalSize blockSize : Nat) : Nat × Bytes :=
  let nblk := ciSvuNblocks totalSize blockSize
  (nblk, (List.range nblk).flatMap (hashBlock src totalSize blockSize))

/-- `expected` is the memory behind the manifest pointer and `allocated` says
whether the three allocations succeed. -/
def ciSvuNew (allocated : Bool) (totalSize blockSize : Nat)
    (expected : Nat → UInt8) (nblocks : Nat) : Option CiSvu :=
  let nblk := ciSvuNblocks totalSize blockSize
  if nblk = 0 ∨ nblk ≠ nblocks then none
  else if !allocated then none
  else some {
    total := totalSize
    block := blockSize
    nblocks := nblk
    coveredCount := 0
    data := List.replicate totalSize 0
    covered := List.replicate totalSize false
    expected := (List.range (nblk * hashLen)).map expected }

/-- The coverage loop of `ci_svu_accept`: `count` bytes from position `i`. -/
def markCovered : Nat → Nat → List Bool × Nat → List Bool × Nat
  | 0, _, state => state
  | count + 1, i, (covered, coveredCount) =>
      if covered[i]? = some false then
        markCovered count (i + 1) (covered.set i true, coveredCount + 1)
      else
        markCovered count (i + 1) (covered, coveredCount)

/-- `none` is the return value -1, which leaves the receiver as it was. -/
def ciSvuAccept (s : CiSvu) (offset : Nat) (buf : Bytes) : Option CiSvu :=
  if offset + buf.length > s.total then none
  else
    let marked := markCovered buf.length offset (s.covered, s.coveredCount)
    some { s with
      covered := marked.1
      coveredCount := marked.2
      data := splice s.data offset buf }

def ciSvuData (s : CiSvu) : Bytes := s.data

/-- `push_interval`: the interval is stored while there is room and counted
always. -/
def pushInterval (max : Nat) (state : List Span × Nat) (v : Span) :
    List Span × Nat :=
  (if state.2 < max then state.1 ++ [v] else state.1, state.2 + 1)

/-- The inner loop over uncovered bytes, `while (run < total && covered[run] == 0) run++`. -/
def holeEnd (s : CiSvu) : Nat → Nat → Nat
  | 0, run => run
  | fuel + 1, run =>
      if run < s.total ∧ s.covered[run]? = some false then
        holeEnd s fuel (run + 1)
      else run

/-- The intervals the hole scan pushes from position `i` on. -/
def holeLoop (s : CiSvu) : Nat → Nat → List Span
  | 0, _ => []
  | fuel + 1, i =>
      if i < s.total then
        if s.covered[i]? = some false then
          let run := holeEnd s s.total i
          ⟨i, run⟩ :: holeLoop s fuel run
        else
          holeLoop s fuel (i + 1)
      else []

/-- The digest comparison of `ci_svu_verify` for block `b`. -/
def blockFails (s : CiSvu) (b : Nat) : Bool :=
  hashBlock s.data s.total s.block b !=
    slice s.expected (b * hashLen) (b * hashLen + hashLen)

/-- The intervals the block scan pushes from block `b` on; a run is open when
`runEnd` differs from `runStart`. -/
def corruptLoop (s : CiSvu) : Nat → Nat → Nat → Nat → List Span
  | 0, _, runStart, runEnd =>
      if runEnd ≠ runStart then [⟨runStart, runEnd⟩] else []
  | count + 1, b, runStart, runEnd =>
      if blockFails s b then
        let start := b * s.block
        let stop := blockEnd s.total s.block b
        if runEnd ≠ runStart ∧ start % 2 ^ 32 = runEnd then
          corruptLoop s count (b + 1) runStart (stop % 2 ^ 32)
        else
          (if runEnd ≠ runStart then [⟨runStart, runEnd⟩] else []) ++
            corruptLoop s count (b + 1) (start % 2 ^ 32) (stop % 2 ^ 32)
      else
        corruptLoop s count (b + 1) runStart runEnd

/-- Every interval `ci_svu_verify` pushes, in order. -/
def verifyRanges (s : CiSvu) : List Span :=
  if s.coveredCount < s.total then holeLoop s s.total 0
  else corruptLoop s s.nblocks 0 0 0

def verifyStatus (s : CiSvu) : CiSvuStatus :=
  if s.coveredCount < s.total then .incomplete
  else if (List.range s.nblocks).any (blockFails s) then .corrupt
  else .completeVerified

structure Verdict where
  status : CiSvuStatus
  out : List Span
  nout : Nat
  deriving DecidableEq, Repr

def ciSvuVerify (s : CiSvu) (max : Nat) : Verdict :=
  let pushed := (verifyRanges s).foldl (pushInterval max) ([], 0)
  ⟨verifyStatus s, pushed.1, pushed.2⟩

end SatDeploy.Svu
