import Xv6.Lib.Replay
import Xv6.Lib.Words
import Xv6.Log.Basic

set_option autoImplicit false

/-!
# Commit and recovery

The disk side of `log.c`: `commit` and `recover_from_log` as sequences of one-block writes. A crash
keeps a prefix of the writes issued so far and loses the cache.
-/

namespace Xv6

open Replay Bytes

-- `writes` are the disk writes issued since the last boot, oldest first.
structure Machine where
  disk : Disk
  cache : Nat → Option Block
  writes : List (Nat × Block)

namespace Machine

def boot (disk : Disk) : Machine := ⟨disk, fun _ => none, []⟩

-- A clean buffer shows what the disk holds, so caching it or recycling it cannot be observed.
def bread (m : Machine) (b : Nat) : Block := (m.cache b).getD (m.disk b)

def bwrite (m : Machine) (b : Nat) (data : Block) : Machine :=
  { disk := write m.disk (b, data)
    cache := Function.update m.cache b (some data)
    writes := m.writes ++ [(b, data)] }

end Machine

open Machine

def writeLog (start : Nat) (lh : LogHeader) (m : Machine) : Machine :=
  (List.range lh.n).foldl
    (fun m tail => m.bwrite (start + tail + 1) (m.bread (lh.block.getD tail 0))) m

def installTrans (start : Nat) (lh : LogHeader) (m : Machine) : Machine :=
  (List.range lh.n).foldl
    (fun m tail => m.bwrite (lh.block.getD tail 0) (m.bread (start + tail + 1))) m

-- `n` is the first word of the header block and `block` follows; the rest of the buffer stays.
def encodeHead (buf : Block) (lh : LogHeader) : Block :=
  (List.range lh.n).foldl (fun buf i => putLE buf (4 + 4 * i) 4 (lh.block.getD i 0))
    (putLE buf 0 4 lh.n)

def writeHead (start : Nat) (lh : LogHeader) (m : Machine) : Machine :=
  m.bwrite start (encodeHead (m.bread start) lh)

def headN (buf : Block) : Int := Word.signed 32 (getLE buf 0 4)

def headBlock (buf : Block) (i : Nat) : Nat := getLE buf (4 + 4 * i) 4

-- A count beyond `LOGSIZE` would make the loop store past the end of `block`.
def readHead (start : Nat) (m : Machine) : Option LogHeader :=
  let buf := m.bread start
  if fits : (headN buf).toNat ≤ LOGSIZE then
    some
      { block := (List.range (headN buf).toNat).map (headBlock buf)
        room := by simpa using fits
        uint := by
          intro b member
          obtain ⟨i, -, rfl⟩ := List.mem_map.mp member
          exact getLE_lt buf (4 + 4 * i) 4 }
  else none

def commit (start : Nat) (lh : LogHeader) (m : Machine) : Machine :=
  if lh.n > 0 then
    let m := writeLog start lh m
    let m := writeHead start lh m
    let m := installTrans start lh m
    writeHead start .empty m
  else m

def recoverFromLog (start : Nat) (m : Machine) : Option Machine :=
  (readHead start m).map fun lh => writeHead start .empty (installTrans start lh m)

-- Boot and recover: for each entry of `cuts` with a crash after that many disk writes, then to the end.
def recoverAfter (start : Nat) : List Nat → Disk → Option Disk
  | [], disk => (recoverFromLog start (boot disk)).map (·.disk)
  | cut :: cuts, disk =>
    (recoverFromLog start (boot disk)).bind fun m =>
      recoverAfter start cuts (crash disk m.writes cut)

end Xv6
