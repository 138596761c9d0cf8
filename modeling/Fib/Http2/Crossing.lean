import Fib.Http2.Receive

/-! Frames that cross a reset: what the client sent on a stream before it could hear that the server had reset or
finished it. The server has forgotten the stream by then, so the frame is judged by its id alone, and by what the
connection allows a client to make it do for nothing. -/

namespace Fib.Http2
open RecvConn

/-- One of a connection's flood buckets (`h2Budget`); a burst below zero never runs out. Time and tokens are exact
here, where the source has floating point. -/
structure Budget where
  tokens : ℚ := 0
  burst : ℚ := 1000
  rate : ℚ := 100
  last : Option ℚ := none
deriving DecidableEq

namespace Budget

def refilled (b : Budget) (now : ℚ) : ℚ :=
  match b.last with
  | none => b.burst
  | some last => min b.burst (b.tokens + (now - last) * b.rate)

def take (b : Budget) (now : ℚ) : Budget × Bool :=
  if b.burst < 0 then (b, true)
  else if b.refilled now < 1 then ({ b with tokens := b.refilled now, last := some now }, false)
  else ({ b with tokens := b.refilled now - 1, last := some now }, true)

end Budget

inductive ClientFrame where
  | data (id payload padding : ℕ) (endStream : Bool)
  /-- The HEADERS that end a request, decoded. -/
  | trailers (id : ℕ)
  | windowUpdate (id increment : ℕ)
  | rstStream (id : ℕ)
deriving DecidableEq

namespace ClientFrame

def id : ClientFrame → ℕ
  | data id _ _ _ => id
  | trailers id => id
  | windowUpdate id _ => id
  | rstStream id => id

end ClientFrame

inductive FrameErr where
  | stream
  | connection
deriving DecidableEq

structure Reader where
  sc : RecvConn
  resets : Budget := {}
  glitches : Budget := {}

namespace Reader
section
variable (r : Reader)

def glitch (now : ℚ) : Reader × Option FrameErr :=
  ({ r with glitches := (r.glitches.take now).1 }, if (r.glitches.take now).2 then none else some .connection)

def resetCounted (now : ℚ) : Reader × Option FrameErr :=
  ({ r with resets := (r.resets.take now).1 }, if (r.resets.take now).2 then none else some .connection)

/-- `handleData`; `refused` says that what follows the connection's count resets the stream. -/
def handleData (r : Reader) (now : ℚ) (id payload padding : ℕ) (endStream refused : Bool) : Reader × Option FrameErr :=
  let counted := if payload = 0 ∧ endStream = false then r.glitch now else (r, none)
  if counted.2 = some .connection then counted
  else
    let taken := counted.1.sc.handleData id payload padding
    ({ counted.1 with sc := taken.1 },
      match taken.2 with
      | .connError => some .connection
      | .streamError => some .stream
      | _ => if refused then some .stream else none)

/-- `handleHeaderBlock` for a block that opens no stream; `refused` says `handleTrailers` resets the stream. -/
def handleTrailers (id : ℕ) (refused : Bool) : Reader × Option FrameErr :=
  if id % 2 = 0 then (r, some .connection)
  else if id ∈ r.sc.streams then (r, if refused then some .stream else none)
  else if id ≤ r.sc.maxClientID then (r, some .connection)
  else (r, none)

def handleWindowUpdate (id increment : ℕ) : Reader × Option FrameErr :=
  if id = 0 then (r, if increment = 0 then some .connection else none)
  else if r.sc.idleLocked id then (r, some .connection)
  else if id ∉ r.sc.streams then (r, none)
  else (r, if increment = 0 then some .stream else none)

def handleRSTStream (now : ℚ) (id : ℕ) : Reader × Option FrameErr :=
  if id = 0 then (r, some .connection)
  else if r.sc.idleLocked id then (r, some .connection)
  else if id ∈ r.sc.streams then { r with sc := r.sc.forgetLocked id }.resetCounted now
  else (r, none)

def handleFrame (now : ℚ) (refused : Bool) : ClientFrame → Reader × Option FrameErr
  | .data id payload padding endStream => r.handleData now id payload padding endStream refused
  | .trailers id => r.handleTrailers id refused
  | .windowUpdate id increment => r.handleWindowUpdate id increment
  | .rstStream id => r.handleRSTStream now id

/-- `handleFrame` and `handleError`: a stream's error resets the stream and is counted, any other ends the
connection. -/
def receive (now : ℚ) (refused : Bool) (f : ClientFrame) : Reader :=
  match r.handleFrame now refused f with
  | (r', none) => r'
  | (r', some .connection) => { r' with sc := r'.sc.close }
  | (r', some .stream) =>
    let counted := { r' with sc := r'.sc.forgetLocked f.id }.resetCounted now
    if counted.2 = none then counted.1 else { counted.1 with sc := counted.1.sc.close }

/-- What a client that follows the protocol sends on a stream it has opened, or was promised, as long as it has not
heard of a reset: no more DATA than the WINDOW_UPDATEs sent to it let it, and DATA and trailers on its own streams. -/
def Follows (f : ClientFrame) : Prop :=
  r.sc.idleLocked f.id = false ∧ f.id ≠ 0 ∧
    match f with
    | .data id payload padding _ => id % 2 = 1 ∧ (payload + padding : ℤ) ≤ r.sc.clientWindow
    | .trailers id => id % 2 = 1
    | .windowUpdate _ increment => 0 < increment
    | .rstStream _ => True

end

instance (r : Reader) (f : ClientFrame) : Decidable (r.Follows f) := by
  unfold Follows
  cases f <;> infer_instance

/-- The frame is no trailers, and DATA finds a token in the bucket of the resets, and in that of the control frames
if it is empty. -/
def Spared (r : Reader) (now : ℚ) : ClientFrame → Prop
  | .data _ payload _ endStream =>
    (payload = 0 → endStream = false → (r.glitches.take now).2 = true) ∧ (r.resets.take now).2 = true
  | .trailers _ => False
  | .windowUpdate _ _ => True
  | .rstStream _ => True

variable {r : Reader} {now : ℚ} {refused : Bool} {id payload padding : ℕ} {endStream : Bool}

theorem closed_handleData : (r.sc.handleData id payload padding).1.closed = r.sc.closed := by
  unfold RecvConn.handleData
  split_ifs
  · rfl
  · exact RecvConn.closed_creditConnLocked
  · exact RecvConn.closed_creditConnLocked

theorem handleData_gone (hid : id ≠ 0) (hfits : (payload + padding : ℤ) ≤ r.sc.recvWindow)
    (hidle : r.sc.idleLocked id = false) (hgone : id ∉ r.sc.streams) :
    (r.sc.handleData id payload padding).2 = .streamError := by
  have hverdict : r.sc.verdict id = .streamError := by simp [RecvConn.verdict, hidle, hgone]
  unfold RecvConn.handleData
  rw [if_neg (by rintro (h0 | hlt); exacts [hid h0, by omega])]
  split_ifs <;> exact hverdict

theorem handleTrailers_gone (hodd : id % 2 = 1) (hidle : r.sc.idleLocked id = false) (hgone : id ∉ r.sc.streams) :
    r.handleTrailers id refused = (r, some .connection) := by
  have hle : id ≤ r.sc.maxClientID := by
    simpa [idleLocked, show id % 2 ≠ 0 by omega] using hidle
  unfold handleTrailers
  rw [if_neg (by omega), if_neg hgone, if_pos hle]

section
variable {r' : Reader} {f : ClientFrame}

theorem receive_none (h : r.handleFrame now refused f = (r', none)) : r.receive now refused f = r' := by
  simp [receive, h]

theorem receive_connection (h : r.handleFrame now refused f = (r', some .connection)) :
    (r.receive now refused f).sc.closed = true := by
  simp [receive, h, close]

theorem receive_stream (h : r.handleFrame now refused f = (r', some .stream)) (hopen : r'.sc.closed = false) :
    (r.receive now refused f).sc.closed = false ↔ (r'.resets.take now).2 = true := by
  have hclosed : (r'.sc.forgetLocked f.id).closed = false := closed_forgetLocked.trans hopen
  cases htake : (r'.resets.take now).2 <;> simp [receive, h, resetCounted, htake, hclosed, close]

end

theorem receive_data_gone (hopen : r.sc.closed = false) (hid : id ≠ 0)
    (hfits : (payload + padding : ℤ) ≤ r.sc.recvWindow) (hidle : r.sc.idleLocked id = false)
    (hgone : id ∉ r.sc.streams) : (r.receive now refused (.data id payload padding endStream)).sc.closed = false ↔
      r.Spared now (.data id payload padding endStream) := by
  have hverdict := handleData_gone hid hfits hidle hgone
  have hclosed : (r.sc.handleData id payload padding).1.closed = false := closed_handleData.trans hopen
  -- an empty frame has to find a token among the control frames first
  by_cases hempty : payload = 0 ∧ endStream = false
  · obtain ⟨rfl, rfl⟩ := hempty
    cases hglitch : (r.glitches.take now).2 with
    | false =>
      have hframe : r.handleFrame now refused (.data id 0 padding false) = ((r.glitch now).1, some .connection) := by
        simp [handleFrame, handleData, glitch, hglitch]
      simp [receive_connection hframe, Spared, hglitch]
    | true =>
      have hframe : r.handleFrame now refused (.data id 0 padding false) =
          ({ (r.glitch now).1 with sc := (r.sc.handleData id 0 padding).1 }, some .stream) := by
        simp [handleFrame, handleData, glitch, hglitch, hverdict]
      rw [receive_stream hframe hclosed]
      simp [Spared, glitch, hglitch]
  · have hframe : r.handleFrame now refused (.data id payload padding endStream) =
        ({ r with sc := (r.sc.handleData id payload padding).1 }, some .stream) := by
      rw [handleFrame, handleData]
      simp [hempty, hverdict]
    rw [receive_stream hframe hclosed]
    refine ⟨fun ht => ⟨fun h0 he => absurd ⟨h0, he⟩ hempty, ht⟩, fun h => h.2⟩

/-- A frame of a client that follows the protocol, on a stream the server has reset or finished, leaves the
connection open exactly when it is no trailers and, being DATA, finds a token in the buckets it is counted in. -/
theorem crossing_frame_iff (c : HTTP2Config) (ops : List RecvOp) {r : Reader}
    (hrun : (RecvConn.machine c).run ops = r.sc)
    (hopen : r.sc.closed = false) (now : ℚ) (refused : Bool) (f : ClientFrame) (hfollows : r.Follows f)
    (hgone : f.id ∉ r.sc.streams) : (r.receive now refused f).sc.closed = false ↔ r.Spared now f := by
  have hconserved : RecvConn.Conserved r.sc := by
    rcases RecvConn.run_conserved c ops with hc | h
    · rw [hrun, hopen] at hc
      cases hc
    · exact hrun ▸ h
  have hwindow : r.sc.clientWindow = r.sc.recvWindow := by
    have := hconserved.client
    unfold RecvConn.clientWindow
    omega
  obtain ⟨hidle, hid, hsent⟩ := hfollows
  cases f with
  | data id payload padding endStream =>
    exact receive_data_gone hopen hid (hwindow ▸ hsent.2) hidle hgone
  | trailers id =>
    have hend : (r.receive now refused (.trailers id)).sc.closed = true :=
      receive_connection (handleTrailers_gone hsent hidle hgone)
    simp [hend, Spared]
  | windowUpdate id increment =>
    have hframe : r.handleFrame now refused (.windowUpdate id increment) = (r, none) := by
      have hid' : id ≠ 0 := hid
      have hidle' : r.sc.idleLocked id = false := hidle
      have hgone' : id ∉ r.sc.streams := hgone
      simp [handleFrame, handleWindowUpdate, hid', hidle', hgone']
    rw [receive_none hframe]
    simp [hopen, Spared]
  | rstStream id =>
    have hframe : r.handleFrame now refused (.rstStream id) = (r, none) := by
      have hid' : id ≠ 0 := hid
      have hidle' : r.sc.idleLocked id = false := hidle
      have hgone' : id ∉ r.sc.streams := hgone
      simp [handleFrame, handleRSTStream, hid', hidle', hgone']
    rw [receive_none hframe]
    simp [hopen, Spared]

/-- A request whose stream the server has reset, by a timeout or with an early response, while its body and its
trailers were on the way. -/
def resetEarly : Reader := { sc := (machine {}).run [.handleHeaderBlock 1 true false, .forget 1] }

theorem data_crossing_spared : (resetEarly.receive 0 false (.data 1 100 0 false)).sc.closed = false :=
  (crossing_frame_iff {} [.handleHeaderBlock 1 true false, .forget 1] rfl (by decide) 0 false
    (.data 1 100 0 false) (by decide) (by decide)).2
    ⟨fun h => absurd h (by decide), by decide⟩

theorem trailers_crossing_end : resetEarly.Follows (.trailers 1) ∧ 1 ∉ resetEarly.sc.streams ∧
    resetEarly.sc.closed = false ∧ (resetEarly.receive 0 false (.trailers 1)).sc.closed = true := by
  decide

end Reader
end Fib.Http2
