import Fib.Lib.Runs

/-! The pieces of a torrent while peers and web seeds send them: what `onPiece`, `fetchWebSeed`, `verifyPiece` and
`check` do under the torrent's lock, and what they do to the storage without it. A step is one region under the
lock, one read of the storage or one write to it. Which block is asked of whom is left to the run. -/

namespace Fib.Bittorrent
open Function

abbrev Data := List UInt8

/-- A peer by the address it is banned by (`banKey`). -/
abbrev Addr := ℕ

/-- What `VerifyPiece` says: no error, `ErrNoPieceLayer`, or any other. -/
inductive Verdict where
  | ok
  | noLayer
  | bad
deriving DecidableEq

/-- What the torrent's info gives: the number of its pieces and of the blocks of each, and the check of a piece,
told whether the layer of its file is known. A piece is its blocks; the padding after them is always zeros. -/
structure Info where
  pieces : ℕ
  blocks : ℕ → ℕ
  verify : ℕ → Bool → List Data → Verdict
  /-- SHA-1. -/
  sum : Data → ℕ

namespace Info

def VerifyPiece (info : Info) (i : ℕ) (layer : Bool) (data : ℕ → Data) : Verdict :=
  info.verify i layer ((List.range (info.blocks i)).map data)

/-- The bytes pass the check, with the layer or, where it is not needed, without. -/
def Passes (info : Info) (i : ℕ) (data : ℕ → Data) : Prop :=
  info.VerifyPiece i false data = .ok ∨ info.VerifyPiece i true data = .ok

instance (info : Info) (i : ℕ) (data : ℕ → Data) : Decidable (info.Passes i data) :=
  inferInstanceAs (Decidable (_ ∨ _))

end Info

/-- `blockState`, without the count of its requests. -/
structure Block where
  done : Bool := false
  /-- `from`: who sent it, if a peer did. -/
  sender : Option Addr := none
deriving DecidableEq

structure Partial where
  blocks : List Block := []
  done : ℕ := 0
  writing : ℕ := 0
  busy : Bool := false
  waitHashes : Bool := false
deriving DecidableEq

namespace Partial

def new (n : ℕ) : Partial := { blocks := List.replicate n {} }

def complete (p : Partial) : Bool := p.done == p.blocks.length

def fill (p : Partial) : Partial :=
  { p with
    blocks := p.blocks.map fun b => { b with done := true }
    done := p.done + p.blocks.countP fun b => !b.done }

end Partial

/-- An `onPiece` between its two regions under the lock; `result` is what `writeData` returned. -/
structure PeerWrite where
  gen : ℕ
  block : ℕ
  data : Data
  sender : Addr
  result : Option Bool := none

inductive FetchStage where
  | started
  /-- It reads from the web seed, having found the storage open or not. -/
  | reading (storage : Bool)
  | writing (data : ℕ → Data)
  | written (ok : Bool)

structure Fetch where
  gen : ℕ
  stage : FetchStage := .started

inductive VerifyStage where
  | started
  | reading (layer : Bool)
  | judging (data : ℕ → Data) (verdict : Verdict)

structure Verification where
  gen : ℕ
  stage : VerifyStage := .started

/-- A piece of the torrent, with the storage's bytes of it and the calls under way for it. A `*partial` is the
number of its making: `current` is what `t.partials` has for the piece. -/
structure Piece where
  had : Bool := false
  current : Option ℕ := none
  partials : ℕ → Partial := fun _ => {}
  made : ℕ := 0
  stored : ℕ → Data
  /-- `pieceLayersFor` finds a layer. -/
  layer : Bool := false
  writes : List PeerWrite := []
  fetches : List Fetch := []
  checks : List Verification := []
  /-- `banRecords`, by block. -/
  records : ℕ → List (Addr × ℕ) := fun _ => []
  /-- Not in the source: what peers sent of the piece, by block. -/
  sent : List (Addr × ℕ × Data) := []

namespace Piece
variable (s : Piece) (info : Info)

def setPartial (g : ℕ) (p : Partial) : Piece :=
  { s with partials := update s.partials g p }

/-- `busy` set and a `verifyPiece` started. -/
def verify (g : ℕ) : Piece :=
  { s.setPartial g { s.partials g with busy := true } with checks := s.checks ++ [{ gen := g }] }

/-- A `newPartial` of `n` blocks for the piece: what `nextRequest` and `startWebSeedsLocked` do. -/
def begin (n : ℕ) : Piece :=
  { s.setPartial s.made (.new n) with
    current := some s.made
    made := s.made + 1 }

def beginFetch (n : ℕ) : Piece :=
  { s.begin n with fetches := s.fetches ++ [{ gen := s.made }] }

/-- `onPiece` up to its write: the block is taken if the piece's partial lacks it and is not being verified. -/
def onPiece (storage : Bool) (a : Addr) (b : ℕ) (d : Data) : Piece :=
  match s.current with
  | none => { s with sent := (a, b, d) :: s.sent }
  | some g =>
    let p := s.partials g
    if b < p.blocks.length ∧ (p.blocks.getD b {}).done = false ∧ p.busy = false ∧ storage = true then
      { s.setPartial g { p with
          blocks := p.blocks.set b { done := true, sender := some a }
          done := p.done + 1
          writing := p.writing + 1 } with
        writes := s.writes ++ [{ gen := g, block := b, data := d, sender := a }]
        sent := (a, b, d) :: s.sent }
    else { s with sent := (a, b, d) :: s.sent }

/-- `writeData` of a peer's block; a write that fails leaves `left`. -/
def writeBlock (k : ℕ) (left : Option Data) : Piece :=
  match s.writes[k]? with
  | none => s
  | some w =>
    if w.result = none then
      { s with
        stored := update s.stored w.block (left.getD w.data)
        writes := s.writes.set k { w with result := some left.isNone } }
    else s

def endWrite (k : ℕ) : Piece :=
  match s.writes[k]? with
  | none => s
  | some w =>
    let p := { s.partials w.gen with writing := (s.partials w.gen).writing - 1 }
    let s' := { s with writes := s.writes.eraseIdx k }
    match w.result with
    | none => s
    | some false =>
      s'.setPartial w.gen { p with
        blocks := p.blocks.modify w.block fun b => { b with done := false }
        done := p.done - 1 }
    | some true =>
      let s'' := s'.setPartial w.gen p
      if p.complete ∧ p.writing = 0 ∧ p.busy = false ∧ p.waitHashes = false ∧ s.current = some w.gen then
        s''.verify w.gen
      else s''

def setFetch (k : ℕ) (stage : FetchStage) : Piece :=
  { s with fetches := s.fetches.modify k fun f => { f with stage } }

/-- A step of `fetchWebSeed` up to its last region under the lock, but for the write: it notes the storage, then
reads `data` from the web seed or fails. -/
def fetch (k : ℕ) (storage : Bool) (data : Option (ℕ → Data)) : Piece :=
  match s.fetches[k]? with
  | none => s
  | some f =>
    match f.stage, data with
    | .started, _ => s.setFetch k (.reading storage)
    | .reading _, none => s.setFetch k (.written false)
    | .reading false, some _ => s.setFetch k (.written true)
    | .reading true, some d => s.setFetch k (.writing d)
    | _, _ => s

/-- `writeData` of what a web seed sent; a write that fails leaves `left`. -/
def writeFetch (k : ℕ) (left : Option (ℕ → Data)) : Piece :=
  match s.fetches[k]? with
  | none => s
  | some f =>
    match f.stage with
    | .writing d => { s.setFetch k (.written left.isNone) with stored := left.getD d }
    | _ => s

def endFetch (k : ℕ) : Piece :=
  match s.fetches[k]? with
  | none => s
  | some f =>
    match f.stage with
    | .written ok =>
      let s' := { s with fetches := s.fetches.eraseIdx k }
      let p := s.partials f.gen
      if ok = true ∧ s.current = some f.gen ∧ p.busy = false then
        if p.writing = 0 then (s'.setPartial f.gen p.fill).verify f.gen else s'.setPartial f.gen p.fill
      else s'
    | _ => s

/-- The verification `k` off, its partial no longer busy. -/
def leaveCheck (k g : ℕ) : Piece :=
  { s.setPartial g { s.partials g with busy := false } with checks := s.checks.eraseIdx k }

/-- `verifyPiece`'s first region under the lock. -/
def startCheck (k : ℕ) (storage : Bool) : Piece :=
  match s.checks[k]? with
  | none => s
  | some v =>
    match v.stage with
    | .started =>
      if storage then { s with checks := s.checks.set k { v with stage := .reading s.layer } }
      else s.leaveCheck k v.gen
    | _ => s

/-- `verifyPiece`'s read of the storage and its check; a read that fails has filled in `err`. -/
def readCheck (i k : ℕ) (err : Option (ℕ → Data)) : Piece :=
  match s.checks[k]? with
  | none => s
  | some v =>
    match v.stage with
    | .reading layer =>
      { s with
        checks := s.checks.set k { v with
          stage := match err with
            | none => .judging s.stored (info.VerifyPiece i layer s.stored)
            | some d => .judging d .bad } }
    | _ => s

def markHave : Piece :=
  if s.had then s else { s with had := true, current := none }

def kick : Piece :=
  match s.current with
  | none => s
  | some g =>
    let p := { s.partials g with waitHashes := false }
    if (s.partials g).waitHashes = true ∧ s.layer = true then
      if p.complete ∧ p.writing = 0 ∧ p.busy = false then (s.setPartial g p).verify g else s.setPartial g p
    else s

/-- The one peer that sent every block of `p`. -/
def onlySender (p : Partial) : Option Addr :=
  match p.blocks with
  | [] => none
  | b :: bs => if bs.all (·.sender == b.sender) then b.sender else none

/-- `smartBanBadLocked`: the peer it bans, if one sent all of the piece, and the records it leaves otherwise. -/
def smartBanBad (p : Partial) (data : ℕ → Data) : Piece × List Addr :=
  match onlySender p with
  | some a => (s, [a])
  | none =>
    ({ s with
      records := fun b =>
        match (p.blocks.getD b {}).sender with
        | some a => if (s.records b).length < 8 then s.records b ++ [(a, info.sum (data b))] else s.records b
        | none => s.records b }, [])

/-- `smartBanGoodLocked`: the records of the piece's `n` blocks are used up, and whoever left one that differs is
banned. -/
def smartBanGood (n : ℕ) (data : ℕ → Data) : Piece × List Addr :=
  ({ s with records := fun b => if b < n then [] else s.records b },
    (List.range n).flatMap fun b =>
      ((s.records b).filter fun r => r.2 ≠ info.sum (data b)).map (·.1))

/-- What `verifyPiece` says of the data it read of the piece, once the verification is off: the piece, and whom it
bans. -/
def judge (i g : ℕ) (data : ℕ → Data) : Verdict → Piece × List Addr
  | .ok =>
    let r := s.smartBanGood info (info.blocks i) data
    (r.1.markHave, r.2)
  | .noLayer => (s.setPartial g { s.partials g with waitHashes := true }, [])
  | .bad =>
    let r := s.smartBanBad info (s.partials g) data
    ({ r.1 with current := none }, r.2)

/-- What `check` does with a piece whose layer is missing: a partial of `n` blocks, all there, waits for it. -/
def await (n : ℕ) : Piece :=
  if s.current = none ∧ s.had = false then
    let s' := s.begin n
    s'.setPartial s.made { (Partial.new n).fill with waitHashes := true }
  else s

end Piece

/-- Where `check` is: the piece it is at, what it read of it, and whether it then found its layer. -/
structure CheckRun where
  pos : ℕ := 0
  data : Option (ℕ → Data) := none
  layer : Option Bool := none

/-- The torrent once it has its info: `check` runs first, and `checking` is its not having ended. -/
structure Torrent where
  piece : ℕ → Piece
  /-- `t.storage` is not nil. -/
  storage : Bool := true
  check : Option CheckRun := some {}
  /-- The client's bans. -/
  bans : List Addr := []

/-- A step: which call takes it, of the piece's calls of its kind, and what the storage, the web seed or the peer
answers. -/
inductive Op where
  /-- `nextRequest` begins a piece. -/
  | begin (i : ℕ)
  | onPiece (i : ℕ) (a : Addr) (b : ℕ) (d : Data)
  | writeBlock (i k : ℕ) (left : Option Data)
  | endWrite (i k : ℕ)
  /-- `startWebSeedsLocked` begins a piece. -/
  | beginFetch (i : ℕ)
  | fetch (i k : ℕ) (data : Option (ℕ → Data))
  | writeFetch (i k : ℕ) (left : Option (ℕ → Data))
  | endFetch (i k : ℕ)
  | startCheck (i k : ℕ)
  | readCheck (i k : ℕ) (err : Option (ℕ → Data))
  | endCheck (i k : ℕ)
  /-- `setLayerLocked`, for the layer of these pieces. -/
  | setLayer (pieces : ℕ → Bool)
  /-- `check` reads its next piece. -/
  | checkRead (ok : Bool)
  | checkLayer
  /-- `check` judges the piece it read. -/
  | checkPiece
  | checkEnd
  /-- `Stop` and `Start`, as far as the storage goes. -/
  | setStorage (opened : Bool)

namespace Torrent

def setPiece (t : Torrent) (i : ℕ) (s : Piece) : Torrent := { t with piece := update t.piece i s }

def kickWaiting (t : Torrent) : Torrent := { t with piece := fun i => (t.piece i).kick }

/-- A piece may be begun: `fillRequestsLocked`, `startWebSeedsLocked`, `wanted` and `pickPiece`. -/
def Wanted (info : Info) (t : Torrent) (i : ℕ) : Prop :=
  t.check.isNone = true ∧ t.storage = true ∧ i < info.pieces ∧ (t.piece i).had = false ∧
    (t.piece i).current = none

instance (info : Info) (t : Torrent) (i : ℕ) : Decidable (t.Wanted info i) :=
  inferInstanceAs (Decidable (_ ∧ _ ∧ _ ∧ _ ∧ _))

variable (info : Info) (t : Torrent)

/-- `verifyPiece`'s last region under the lock: a verdict on a partial given up in the meantime is ignored, and a
missing layer may have come since. -/
def endCheck (i k : ℕ) : Torrent :=
  match (t.piece i).checks[k]? with
  | none => t
  | some v =>
    match v.stage with
    | .judging data verdict =>
      let s := (t.piece i).leaveCheck k v.gen
      if s.current ≠ some v.gen ∨ s.had = true then t.setPiece i s
      else
        let r := s.judge info i v.gen data verdict
        let t' := { t.setPiece i r.1 with bans := t.bans ++ r.2 }
        if verdict = .noLayer then t'.kickWaiting else t'
    | _ => t

/-- `check`'s last region under the lock for a piece. -/
def checkPiece : Torrent :=
  match t.check with
  | some ⟨i, some data, some layer⟩ =>
    let t' := { t with check := some { pos := i + 1 } }
    match info.VerifyPiece i layer data with
    | .ok => t'.setPiece i (t.piece i).markHave
    | .noLayer => t'.setPiece i ((t.piece i).await (info.blocks i))
    | .bad => t'
  | _ => t

def step : Op → Torrent
  | .begin i => if t.Wanted info i then t.setPiece i ((t.piece i).begin (info.blocks i)) else t
  | .onPiece i a b d => t.setPiece i ((t.piece i).onPiece t.storage a b d)
  | .writeBlock i k left => t.setPiece i ((t.piece i).writeBlock k left)
  | .endWrite i k => t.setPiece i ((t.piece i).endWrite k)
  | .beginFetch i => if t.Wanted info i then t.setPiece i ((t.piece i).beginFetch (info.blocks i)) else t
  | .fetch i k data => t.setPiece i ((t.piece i).fetch k t.storage data)
  | .writeFetch i k left => t.setPiece i ((t.piece i).writeFetch k left)
  | .endFetch i k => t.setPiece i ((t.piece i).endFetch k)
  | .startCheck i k => t.setPiece i ((t.piece i).startCheck k t.storage)
  | .readCheck i k err => t.setPiece i ((t.piece i).readCheck info i k err)
  | .endCheck i k => t.endCheck info i k
  | .setLayer pieces =>
    { t with piece := fun i => { t.piece i with layer := (t.piece i).layer || pieces i } }.kickWaiting
  | .checkRead ok =>
    match t.check with
    | some ⟨i, none, none⟩ =>
      if i < info.pieces then
        { t with check := some (if ok then { pos := i, data := some (t.piece i).stored } else { pos := i + 1 }) }
      else t
    | _ => t
  | .checkLayer =>
    match t.check with
    | some ⟨i, some data, none⟩ =>
      { t with check := some { pos := i, data := some data, layer := some (t.piece i).layer } }
    | _ => t
  | .checkPiece => t.checkPiece info
  | .checkEnd =>
    match t.check with
    | some ⟨i, none, none⟩ => if i < info.pieces then t else { t with check := none }
    | _ => t
  | .setStorage opened => { t with storage := opened }

def machine (stored : ℕ → ℕ → Data) : Machine Torrent Op where
  init := { piece := fun i => { stored := stored i } }
  step := step info

end Torrent
end Fib.Bittorrent
