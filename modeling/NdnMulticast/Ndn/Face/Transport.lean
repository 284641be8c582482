/-
  `ndn::detail::StreamTransportImpl`, the stream transport of `ndn::Face`.

  An asynchronous operation completes, and later its handler runs; `m_socket.cancel()` only
  reaches operations that have not completed.  What is left of an implementation object after
  `close` has no effect.
-/

namespace NdnMulticast.Ndn

open Bool

/-- The `async_write` of the head of the transmission queue. -/
inductive Write where
  | none
  | inProgress
  /-- The handler has not run yet. -/
  | completed
deriving DecidableEq, Repr

structure Transport where
  isConnecting : Bool
  isConnected : Bool
  isReceiving : Bool
  transmissionQueue : List (List UInt8)
  write : Write
  /-- Calls of `async_receive` that have not completed. -/
  waiting : Nat
  /-- Calls of `async_receive` that have completed and whose handler has not ended. -/
  completed : Nat
deriving DecidableEq, Repr

namespace Transport

def init : Transport := ⟨false, false, false, [], .none, 0, 0⟩

variable (t : Transport)

def connect : Transport :=
  if t.isConnecting then t else { t with isConnecting := true }

def close (_ : Transport) : Transport := init

/-- `StreamTransportImpl::pause`.  Cancelling is for the whole socket, writing included. -/
def pause : Transport :=
  if t.isConnecting then t
  else if t.isReceiving then { t with
    isReceiving := false
    waiting := 0
    write := if t.write = .inProgress then .none else t.write }
  else t

def resume : Transport :=
  if t.isConnecting then t
  else if t.isReceiving then t
  else { t with isReceiving := true, waiting := t.waiting + 1 }

def asyncWrite : Transport := { t with write := .inProgress }

def send (wire : List UInt8) : Transport :=
  let t := { t with transmissionQueue := t.transmissionQueue ++ [wire] }
  if t.isConnected && t.transmissionQueue.length == 1 then t.asyncWrite else t

/-- `StreamTransportImpl::connectHandler`, without an error. -/
def connectHandler : Transport :=
  let t := { t with isConnecting := false, isConnected := true }
  if t.transmissionQueue.isEmpty then t else t.resume.asyncWrite

/-- `StreamTransportImpl::handleAsyncWrite`, without an error. -/
def handleAsyncWrite : Transport :=
  let t := { t with transmissionQueue := t.transmissionQueue.drop 1, write := .none }
  if t.transmissionQueue.isEmpty then t else t.asyncWrite

/-- An `async_receive` completes. -/
def receiveCompleted : Transport :=
  { t with waiting := t.waiting - 1, completed := t.completed + 1 }

/-- The end of `StreamTransportImpl::handleAsyncReceive`: the next `asyncReceive`. -/
def receiveAgain : Transport :=
  { t with waiting := t.waiting + 1, completed := t.completed - 1 }

/-- An exception leaves `handleAsyncReceive` before it receives again. -/
def receiveAborted : Transport := { t with completed := t.completed - 1 }

def ensureConnected (wantResume : Bool) : Transport :=
  let t := if t.isConnected then t else t.connect
  if wantResume && !t.isReceiving then t.resume else t

/-- The flags of the transport agree with what it does. -/
structure Sound (t : Transport) : Prop where
  notBoth : t.isConnecting = true → t.isConnected = false
  connected : t.isReceiving = true → t.isConnected = true
  outstanding : t.isReceiving = true → 0 < t.waiting + t.completed

section

variable {t : Transport}

theorem sound_init : Sound init := ⟨by decide, by decide, by decide⟩

theorem Sound.pause (h : Sound t) : Sound t.pause := by
  rw [Transport.pause]
  split
  · exact h
  · split
    · exact ⟨h.notBoth, (fun hr => nomatch hr), (fun hr => nomatch hr)⟩
    · exact h

theorem Sound.resume (h : Sound t) (hc : t.isConnected = true) : Sound t.resume := by
  rw [Transport.resume]
  split
  · exact h
  · split
    · exact h
    · exact ⟨h.notBoth, fun _ => hc, fun _ => Nat.add_pos_left (Nat.succ_pos _) _⟩

theorem Sound.ensureConnected (h : Sound t) (wantResume : Bool) :
    Sound (t.ensureConnected wantResume) := by
  rw [Transport.ensureConnected]
  cases hconn : t.isConnected with
  | true =>
    simp only [if_true]
    split
    · exact h.resume hconn
    · exact h
  | false =>
    -- the transport starts connecting, and then it does not resume
    have hconnecting : t.connect.isConnecting = true := by
      rw [Transport.connect]
      split
      · assumption
      · rfl
    have hsound : Sound t.connect := by
      rw [Transport.connect]
      split
      · exact h
      · exact ⟨fun _ => hconn, h.connected, h.outstanding⟩
    have hresume : t.connect.resume = t.connect := by rw [Transport.resume, if_pos hconnecting]
    simp only [false_eq_true, if_false, hresume, ite_self]
    exact hsound

/-- Whoever wants to receive does, unless there is no connection yet. -/
theorem ensureConnected_receiving (h : (t.ensureConnected true).isConnected = true)
    (hsound : Sound t) : (t.ensureConnected true).isReceiving = true := by
  have hnotConnecting := (hsound.ensureConnected true).notBoth
  rw [Transport.ensureConnected] at h hnotConnecting ⊢
  generalize (if t.isConnected then t else t.connect) = u at *
  cases hr : u.isReceiving with
  | true => simp [hr]
  | false =>
    simp only [hr, Bool.not_false, Bool.and_true, if_true] at h hnotConnecting ⊢
    rw [Transport.resume] at h hnotConnecting ⊢
    split
    · rename_i hc
      rw [if_pos hc] at h hnotConnecting
      simp [hnotConnecting hc] at h
    · simp [hr]

theorem Sound.send (h : Sound t) (wire : List UInt8) : Sound (t.send wire) := by
  rw [Transport.send]
  split <;> exact ⟨h.notBoth, h.connected, h.outstanding⟩

theorem send_isConnected (wire : List UInt8) : (t.send wire).isConnected = t.isConnected := by
  rw [Transport.send]
  split <;> rfl

theorem send_isReceiving (wire : List UInt8) : (t.send wire).isReceiving = t.isReceiving := by
  rw [Transport.send]
  split <;> rfl

theorem Sound.connectHandler (h : Sound t) : Sound t.connectHandler := by
  have hconnected : Sound { t with isConnecting := false, isConnected := true } :=
    ⟨(fun hc => nomatch hc), fun _ => rfl, h.outstanding⟩
  rw [Transport.connectHandler]
  split
  · exact hconnected
  · have hresumed := hconnected.resume rfl
    exact ⟨hresumed.notBoth, hresumed.connected, hresumed.outstanding⟩

/-- Connecting is made up for with receiving if something waits to be sent. -/
theorem connectHandler_receiving (h : t.transmissionQueue ≠ []) :
    t.connectHandler.isReceiving = true := by
  have hempty : t.transmissionQueue.isEmpty = false := by simpa using h
  rw [Transport.connectHandler]
  simp only [hempty, false_eq_true, if_false]
  rw [asyncWrite, Transport.resume]
  simp only [false_eq_true, if_false]
  split
  · assumption
  · rfl

theorem Sound.handleAsyncWrite (h : Sound t) : Sound t.handleAsyncWrite := by
  rw [Transport.handleAsyncWrite]
  split <;> exact ⟨h.notBoth, h.connected, h.outstanding⟩

theorem handleAsyncWrite_isConnected : t.handleAsyncWrite.isConnected = t.isConnected := by
  rw [Transport.handleAsyncWrite]
  split <;> rfl

theorem handleAsyncWrite_isReceiving : t.handleAsyncWrite.isReceiving = t.isReceiving := by
  rw [Transport.handleAsyncWrite]
  split <;> rfl

theorem Sound.receiveCompleted (h : Sound t) : Sound t.receiveCompleted :=
  ⟨h.notBoth, h.connected, fun _ => Nat.add_pos_right _ (Nat.succ_pos _)⟩

theorem Sound.receiveAgain (h : Sound t) : Sound t.receiveAgain :=
  ⟨h.notBoth, h.connected, fun _ => Nat.add_pos_left (Nat.succ_pos _) _⟩

end

end Transport

end NdnMulticast.Ndn
