import Forge.Common.Machine
import Forge.Common.Multimaps
import Forge.RemoteCache.Server

/-!
# Clients of the remote cache on a network that loses lines

A call of a client makes up to three attempts. Every attempt opens a connection of its own and
writes one line. The line can be lost, and a connection can break before the answer is there: then
the call tries again, while the server may still be busy with the line of an attempt that was given
up. So one call can be served up to three times, at any later time and in any order.
-/

namespace Forge.RemoteCache

open Forge.Common

/-- Why a call of a client fails. -/
inductive RemoteCacheError where
  | network (message : String)
  | protocol (message : String)
  deriving DecidableEq, Repr

/-- A line of the server: the response to a request, or a complaint about a line that is none. -/
inductive Reply where
  | response (response : CacheResponse)
  | error (message : String)
  deriving DecidableEq, Repr

/-- The way in which an attempt ends before there is a line to read. -/
inductive SendFailure where
  | connect (e : String)
  | request (e : String)
  | newline (e : String)
  | flush (e : String)

/-- The way in which a connection ends before there is a whole line to read. -/
inductive ReadFailure where
  | empty
  | failed (e : String)

/-- Where a call is: between two attempts, waiting on a connection, or returned. -/
inductive CallStage where
  | between
  | waiting (connection : ℕ)
  | returned (result : Except RemoteCacheError Reply)

/-- A call of `send_request`. -/
structure Call where
  request : CacheRequest
  attempts : ℕ
  lastErr : RemoteCacheError
  stage : CallStage

/-- What became of a line that was written on a connection. -/
inductive LineStage where
  | sent
  | lost
  | serving (program : ServerM CacheResponse)

/-- A connection on which a whole request was written. -/
structure Connection where
  call : ℕ
  request : CacheRequest
  line : LineStage

/-- The server, the calls of all clients and the connections. -/
structure Network where
  server : ServerState
  calls : List Call
  connections : List Connection

/-- What can happen next. A call can begin at any time, so clients are not told apart. -/
inductive NetworkEvent where
  | call (request : CacheRequest)
  | sendFails (i : ℕ) (failure : SendFailure)
  | sends (i : ℕ)
  | loses (c : ℕ)
  | reads (c : ℕ)
  | serves (c : ℕ)
  | replies (i : ℕ)
  | readFails (i : ℕ) (failure : ReadFailure)
  | garbles (i : ℕ) (e : String)

/-- The error that is kept for an attempt that could not write its line. -/
def SendFailure.error (serverAddr : String) : SendFailure → RemoteCacheError
  | connect e => .network ("cannot connect to " ++ serverAddr ++ ": " ++ e)
  | request e => .network ("failed to send request: " ++ e)
  | newline e => .network ("failed to send newline: " ++ e)
  | flush e => .network ("failed to flush stream: " ++ e)

/-- Whether the whole request had been written. The server takes a line also when it has no end. -/
def SendFailure.written : SendFailure → Bool
  | connect _ | request _ => false
  | newline _ | flush _ => true

/-- The error that is kept for an attempt that could not read a line. -/
def ReadFailure.error : ReadFailure → RemoteCacheError
  | empty => .protocol "empty response from server"
  | failed e => .network ("failed to read response: " ++ e)

namespace Call

/-- A call that begins. -/
def new (request : CacheRequest) : Call := ⟨request, 0, .network "failed to connect", .between⟩

/-- Begin an attempt. -/
def attempt (call : Call) : Call := { call with attempts := call.attempts + 1 }

/-- Keep the error of an attempt, and return it after the third. -/
def fail (call : Call) (error : RemoteCacheError) : Call :=
  { call with lastErr := error, stage := if call.attempts < 3 then .between else .returned (.error error) }

/-- Wait for a line on a connection. -/
def wait (call : Call) (c : ℕ) : Call := { call with stage := .waiting c }

/-- Return. -/
def finish (call : Call) (result : Except RemoteCacheError Reply) : Call :=
  { call with stage := .returned result }

@[simp] theorem new_request (request : CacheRequest) : (new request).request = request := rfl

@[simp] theorem attempt_request (call : Call) : call.attempt.request = call.request := rfl

@[simp] theorem attempt_attempts (call : Call) : call.attempt.attempts = call.attempts + 1 := rfl

@[simp] theorem fail_request (call : Call) (error : RemoteCacheError) : (call.fail error).request = call.request := rfl

@[simp] theorem fail_attempts (call : Call) (error : RemoteCacheError) : (call.fail error).attempts = call.attempts := rfl

@[simp] theorem fail_stage (call : Call) (error : RemoteCacheError) : (call.fail error).stage =
    if call.attempts < 3 then .between else .returned (.error error) := rfl

@[simp] theorem wait_request (call : Call) (c : ℕ) : (call.wait c).request = call.request := rfl

@[simp] theorem wait_attempts (call : Call) (c : ℕ) : (call.wait c).attempts = call.attempts := rfl

@[simp] theorem wait_stage (call : Call) (c : ℕ) : (call.wait c).stage = .waiting c := rfl

@[simp] theorem finish_request (call : Call) (result : Except RemoteCacheError Reply) :
    (call.finish result).request = call.request := rfl

@[simp] theorem finish_attempts (call : Call) (result : Except RemoteCacheError Reply) :
    (call.finish result).attempts = call.attempts := rfl

@[simp] theorem finish_stage (call : Call) (result : Except RemoteCacheError Reply) :
    (call.finish result).stage = .returned result := rfl

end Call

/-- The connections that an attempt leaves behind that could not end its line. -/
def SendFailure.connections (failure : SendFailure) (i : ℕ) (request : CacheRequest) : List Connection :=
  if failure.written then [⟨i, request, .sent⟩] else []

/-- Such a connection has the whole line. -/
theorem SendFailure.eq_of_mem_connections {failure : SendFailure} {i : ℕ} {request : CacheRequest} {conn : Connection}
    (hmem : conn ∈ failure.connections i request) : conn = ⟨i, request, .sent⟩ := by
  cases failure <;> simp [connections, written] at hmem <;> exact hmem

section Steps

variable (lib : Libraries) (storageDir expectedToken : Option String) (serverAddr : String)

namespace Network

/-- What an event does, if it can happen. -/
def step (s : Network) : NetworkEvent → Option Network
  | .call request => some { s with calls := s.calls ++ [.new request] }
  | .sendFails i failure =>
    match s.calls[i]? with
    | some ⟨request, attempts, lastErr, .between⟩ =>
      some { s with
        calls := s.calls.set i ((Call.mk request attempts lastErr .between).attempt.fail (failure.error serverAddr))
        connections := s.connections ++ failure.connections i request }
    | _ => none
  | .sends i =>
    match s.calls[i]? with
    | some ⟨request, attempts, lastErr, .between⟩ =>
      some { s with
        calls := s.calls.set i ((Call.mk request attempts lastErr .between).attempt.wait s.connections.length)
        connections := s.connections ++ [⟨i, request, .sent⟩] }
    | _ => none
  | .loses c =>
    match s.connections[c]? with
    | some ⟨i, request, .sent⟩ => some { s with connections := s.connections.set c ⟨i, request, .lost⟩ }
    | _ => none
  | .reads c =>
    match s.connections[c]? with
    | some ⟨i, request, .sent⟩ =>
      some { s with
        connections := s.connections.set c
          ⟨i, request, .serving (processRequest lib storageDir expectedToken request)⟩ }
    | _ => none
  | .serves c =>
    match s.connections[c]? with
    | some ⟨i, request, .serving (.next op rest)⟩ =>
      some { s with
        server := (ServerOp.perform lib op s.server).2
        connections := s.connections.set c ⟨i, request, .serving (rest (ServerOp.perform lib op s.server).1)⟩ }
    | _ => none
  | .replies i =>
    match s.calls[i]? with
    | some ⟨request, attempts, lastErr, .waiting c⟩ =>
      match s.connections[c]? with
      | some ⟨_, _, .serving (.done response)⟩ =>
        some { s with
          calls := s.calls.set i ((Call.mk request attempts lastErr (.waiting c)).finish (.ok (.response response))) }
      | _ => none
    | _ => none
  | .readFails i failure =>
    match s.calls[i]? with
    | some ⟨request, attempts, lastErr, .waiting c⟩ =>
      some { s with calls := s.calls.set i ((Call.mk request attempts lastErr (.waiting c)).fail failure.error) }
    | _ => none
  | .garbles i e =>
    match s.calls[i]? with
    | some ⟨request, attempts, lastErr, .waiting c⟩ =>
      some { s with
        calls := s.calls.set i ((Call.mk request attempts lastErr (.waiting c)).finish
          (.error (.protocol ("cannot parse response: " ++ e)))) }
    | _ => none

end Network

/-- The network as a machine. -/
def network : Machine Network NetworkEvent where
  step := Network.step lib storageDir expectedToken serverAddr

/-- A network on which no call has begun. -/
def Network.start (server : ServerState) : Network := ⟨server, [], []⟩

/-- A step by what it needs and what it changes. -/
inductive NetworkStep (s : Network) : NetworkEvent → Network → Prop where
  | call (request : CacheRequest) :
    NetworkStep s (.call request) { s with calls := s.calls ++ [.new request] }
  | sendFails {i : ℕ} {call : Call} (failure : SendFailure) (hcall : s.calls[i]? = some call)
      (hstage : call.stage = .between) :
    NetworkStep s (.sendFails i failure) { s with
      calls := s.calls.set i (call.attempt.fail (failure.error serverAddr))
      connections := s.connections ++ failure.connections i call.request }
  | sends {i : ℕ} {call : Call} (hcall : s.calls[i]? = some call) (hstage : call.stage = .between) :
    NetworkStep s (.sends i) { s with
      calls := s.calls.set i (call.attempt.wait s.connections.length)
      connections := s.connections ++ [⟨i, call.request, .sent⟩] }
  | loses {c : ℕ} {conn : Connection} (hconn : s.connections[c]? = some conn) (hline : conn.line = .sent) :
    NetworkStep s (.loses c) { s with connections := s.connections.set c { conn with line := .lost } }
  | reads {c : ℕ} {conn : Connection} (hconn : s.connections[c]? = some conn) (hline : conn.line = .sent) :
    NetworkStep s (.reads c) { s with
      connections := s.connections.set c
        { conn with line := .serving (processRequest lib storageDir expectedToken conn.request) } }
  | serves {c : ℕ} {conn : Connection} {op : ServerOp} {rest : op.Response → ServerM CacheResponse}
      (hconn : s.connections[c]? = some conn) (hline : conn.line = .serving (.next op rest)) :
    NetworkStep s (.serves c) { s with
      server := (ServerOp.perform lib op s.server).2
      connections := s.connections.set c
        { conn with line := .serving (rest (ServerOp.perform lib op s.server).1) } }
  | replies {i c : ℕ} {call : Call} {conn : Connection} {response : CacheResponse}
      (hcall : s.calls[i]? = some call) (hstage : call.stage = .waiting c)
      (hconn : s.connections[c]? = some conn) (hline : conn.line = .serving (.done response)) :
    NetworkStep s (.replies i) { s with calls := s.calls.set i (call.finish (.ok (.response response))) }
  | readFails {i c : ℕ} {call : Call} (failure : ReadFailure) (hcall : s.calls[i]? = some call)
      (hstage : call.stage = .waiting c) :
    NetworkStep s (.readFails i failure) { s with calls := s.calls.set i (call.fail failure.error) }
  | garbles {i c : ℕ} {call : Call} (e : String) (hcall : s.calls[i]? = some call)
      (hstage : call.stage = .waiting c) :
    NetworkStep s (.garbles i e) { s with
      calls := s.calls.set i (call.finish (.error (.protocol ("cannot parse response: " ++ e)))) }

variable {lib storageDir expectedToken serverAddr}

/-- Every step is one of these. -/
theorem networkStep_of_step {s t : Network} {e : NetworkEvent}
    (hstep : (network lib storageDir expectedToken serverAddr).step s e = some t) :
    NetworkStep lib storageDir expectedToken serverAddr s e t := by
  simp only [network] at hstep
  cases e with
  | call request =>
    cases hstep
    exact .call request
  | sendFails i failure =>
    simp only [Network.step] at hstep
    split at hstep
    · rename_i hcall
      cases hstep
      exact .sendFails failure hcall rfl
    · cases hstep
  | sends i =>
    simp only [Network.step] at hstep
    split at hstep
    · rename_i hcall
      cases hstep
      exact .sends hcall rfl
    · cases hstep
  | loses c =>
    simp only [Network.step] at hstep
    split at hstep
    · rename_i hconn
      cases hstep
      exact .loses hconn rfl
    · cases hstep
  | reads c =>
    simp only [Network.step] at hstep
    split at hstep
    · rename_i hconn
      cases hstep
      exact .reads hconn rfl
    · cases hstep
  | serves c =>
    simp only [Network.step] at hstep
    split at hstep
    · rename_i hconn
      cases hstep
      exact .serves hconn rfl
    · cases hstep
  | replies i =>
    simp only [Network.step] at hstep
    split at hstep
    · rename_i hcall
      split at hstep
      · rename_i hconn
        cases hstep
        exact .replies hcall rfl hconn rfl
      · cases hstep
    · cases hstep
  | readFails i failure =>
    simp only [Network.step] at hstep
    split at hstep
    · rename_i hcall
      cases hstep
      exact .readFails failure hcall rfl
    · cases hstep
  | garbles i e =>
    simp only [Network.step] at hstep
    split at hstep
    · rename_i hcall
      cases hstep
      exact .garbles e hcall rfl
    · cases hstep

/-! ## Attempts -/

/-- What is known of a call, by the connections. -/
structure CallOk (connections : List Connection) (i : ℕ) (call : Call) : Prop where
  opened : (connections.map Connection.call).count i ≤ call.attempts
  attempts : call.attempts ≤ 3
  between : call.stage = .between → call.attempts < 3
  waiting : ∀ c, call.stage = .waiting c → ∃ conn, connections[c]? = some conn ∧ conn.call = i
  answered : ∀ reply, call.stage = .returned (.ok reply) → ∃ conn ∈ connections, ∃ response,
    conn.call = i ∧ conn.line = .serving (.done response) ∧ reply = .response response
  gaveUp : ∀ message, call.stage = .returned (.error (.network message)) → call.attempts = 3

/-- All that is known of the calls, and the calls of the connections. -/
structure Accounted (s : Network) : Prop where
  calls : ∀ i call, s.calls[i]? = some call → CallOk s.connections i call
  connections : ∀ conn ∈ s.connections, ∃ call, s.calls[conn.call]? = some call ∧ call.request = conn.request

section Calls

variable {connections : List Connection} {i : ℕ} {call : Call}

/-- The server goes on with a line. -/
theorem CallOk.set (hok : CallOk connections i call) {c : ℕ} {conn conn' : Connection}
    (hconn : connections[c]? = some conn) (hcall : conn'.call = conn.call)
    (hopen : ∀ response, conn.line ≠ .serving (.done response)) : CallOk (connections.set c conn') i call := by
  have hlt := (List.getElem?_eq_some_iff.mp hconn).1
  have hmap : (connections.set c conn').map Connection.call = connections.map Connection.call := by
    apply List.ext_getElem?
    intro k
    simp only [List.getElem?_map, List.getElem?_set]
    by_cases hk : c = k
    · subst hk
      rw [List.getElem?_eq_getElem hlt, Option.some.injEq] at hconn
      simp [hlt, hconn, hcall]
    · simp [hk]
  refine ⟨by rw [hmap]; exact hok.opened, hok.attempts, hok.between, ?_, ?_, hok.gaveUp⟩
  · intro k hwaiting
    obtain ⟨other, hother, hi⟩ := hok.waiting k hwaiting
    by_cases hk : c = k
    · subst hk
      rw [hconn, Option.some.injEq] at hother
      subst hother
      exact ⟨conn', by simp [hlt], hcall.trans hi⟩
    · exact ⟨other, by simp [hk, hother], hi⟩
  · intro reply hreturned
    obtain ⟨other, hmem, response, hi, hdone, hreply⟩ := hok.answered reply hreturned
    obtain ⟨k, hk⟩ := List.mem_iff_getElem?.mp hmem
    have hne : c ≠ k := by
      intro hsame
      subst hsame
      rw [hconn, Option.some.injEq] at hk
      exact hopen response (hk ▸ hdone)
    exact ⟨other, List.mem_iff_getElem?.mpr ⟨k, by simp [hne, hk]⟩, response, hi, hdone, hreply⟩

/-- Another call opens connections. -/
theorem CallOk.append (hok : CallOk connections i call) {opened : List Connection}
    (hopened : ∀ conn ∈ opened, conn.call ≠ i) : CallOk (connections ++ opened) i call := by
  have hcount : (opened.map Connection.call).count i = 0 := by
    rw [List.count_eq_zero]
    simpa using hopened
  refine ⟨by simpa [hcount] using hok.opened, hok.attempts, hok.between, ?_, ?_, hok.gaveUp⟩
  · intro k hwaiting
    obtain ⟨other, hother, hi⟩ := hok.waiting k hwaiting
    exact ⟨other, List.getElem?_append_left (List.getElem?_eq_some_iff.mp hother).1 ▸ hother, hi⟩
  · intro reply hreturned
    obtain ⟨other, hmem, hrest⟩ := hok.answered reply hreturned
    exact ⟨other, List.mem_append_left _ hmem, hrest⟩

/-- A call that begins has not opened a connection. -/
theorem CallOk.new (request : CacheRequest) (hnone : ∀ conn ∈ connections, conn.call ≠ i) :
    CallOk connections i (.new request) := by
  have hcount : (connections.map Connection.call).count i = 0 := by
    rw [List.count_eq_zero]
    simpa using hnone
  exact ⟨by simp [hcount], by simp [Call.new], by simp [Call.new], nofun, nofun, nofun⟩

/-- A call that keeps an error goes on or has made three attempts. -/
theorem callOk_fail (hopened : (connections.map Connection.call).count i ≤ call.attempts) (hattempts : call.attempts ≤ 3)
    (error : RemoteCacheError) : CallOk connections i (call.fail error) := by
  by_cases hlt : call.attempts < 3
  · exact ⟨hopened, hattempts, fun _ => hlt, by simp [hlt], by simp [hlt], by simp [hlt]⟩
  · exact ⟨hopened, hattempts, by simp [hlt], by simp [hlt], by simp [hlt], fun _ _ => by simp; omega⟩

/-- A call opens at most one connection in an attempt that fails. -/
theorem CallOk.sendFails (hok : CallOk connections i call) (hstage : call.stage = .between) (failure : SendFailure)
    (error : RemoteCacheError) :
    CallOk (connections ++ failure.connections i call.request) i (call.attempt.fail error) := by
  have hlt := hok.between hstage
  have hopened := hok.opened
  have hone : ((failure.connections i call.request).map Connection.call).count i ≤ 1 := by
    cases failure <;> simp [SendFailure.connections, SendFailure.written]
  apply callOk_fail
  · simp
    omega
  · simp
    omega

/-- A call that waits has opened the connection it waits on. -/
theorem CallOk.sends (hok : CallOk connections i call) (hstage : call.stage = .between) :
    CallOk (connections ++ [⟨i, call.request, .sent⟩]) i (call.attempt.wait connections.length) := by
  have hlt := hok.between hstage
  have hopened := hok.opened
  refine ⟨?_, ?_, nofun, ?_, nofun, nofun⟩
  · simp
    omega
  · simp
    omega
  · intro c hc
    simp at hc
    subst hc
    exact ⟨⟨i, call.request, .sent⟩, by simp, rfl⟩

/-- A call that gets an answer returns it. -/
theorem CallOk.replies (hok : CallOk connections i call) {c : ℕ} (hstage : call.stage = .waiting c)
    {conn : Connection} (hconn : connections[c]? = some conn) {response : CacheResponse}
    (hline : conn.line = .serving (.done response)) :
    CallOk connections i (call.finish (.ok (.response response))) := by
  refine ⟨hok.opened, hok.attempts, nofun, nofun, ?_, nofun⟩
  intro reply hreply
  simp at hreply
  subst hreply
  obtain ⟨other, hother, hi⟩ := hok.waiting c hstage
  rw [hconn, Option.some.injEq] at hother
  subst hother
  exact ⟨conn, List.mem_iff_getElem?.mpr ⟨c, hconn⟩, response, hi, hline, rfl⟩

/-- A call that cannot read its answer returns. -/
theorem CallOk.garbles (hok : CallOk connections i call) (message : String) :
    CallOk connections i (call.finish (.error (.protocol message))) :=
  ⟨hok.opened, hok.attempts, nofun, nofun, nofun, nofun⟩

end Calls

/-- A call is replaced, and the others stay as they are. -/
theorem getElem?_set_cases {α : Type} {l : List α} {i k : ℕ} {a a' b : α} (hget : l[i]? = some a)
    (h : (l.set i a')[k]? = some b) : (k = i ∧ b = a') ∨ (k ≠ i ∧ l[k]? = some b) := by
  have hlt := (List.getElem?_eq_some_iff.mp hget).1
  by_cases hk : i = k
  · subst hk
    simp [hlt] at h
    exact .inl ⟨rfl, h.symm⟩
  · rw [List.getElem?_set_ne hk] at h
    exact .inr ⟨Ne.symm hk, h⟩

/-- Where there was a call there is one with the same request. -/
theorem exists_getElem?_set {calls : List Call} {i k : ℕ} {call call' old : Call} (hget : calls[i]? = some call)
    (hrequest : call'.request = call.request) (hold : calls[k]? = some old) :
    ∃ new, (calls.set i call')[k]? = some new ∧ new.request = old.request := by
  have hlt := (List.getElem?_eq_some_iff.mp hget).1
  by_cases hk : i = k
  · subst hk
    rw [hget, Option.some.injEq] at hold
    exact ⟨call', by simp [hlt], hrequest.trans (congrArg Call.request hold)⟩
  · exact ⟨old, by simp [hk, hold], rfl⟩

section Connections

variable {s : Network} {i c : ℕ} {call call' : Call} {conn conn' : Connection}

/-- A call goes on without a new connection. -/
theorem Accounted.set_call (hs : Accounted s) (hcall : s.calls[i]? = some call)
    (hok : CallOk s.connections i call') (hrequest : call'.request = call.request) :
    Accounted { s with calls := s.calls.set i call' } := by
  constructor
  · intro k old hold
    rcases getElem?_set_cases hcall hold with ⟨rfl, rfl⟩ | ⟨-, hold⟩
    · exact hok
    · exact hs.calls k old hold
  · intro conn hmem
    obtain ⟨old, hold, hsame⟩ := hs.connections conn hmem
    obtain ⟨new, hnew, hreq⟩ := exists_getElem?_set hcall hrequest hold
    exact ⟨new, hnew, hreq.trans hsame⟩

/-- A call goes on with new connections of its own. -/
theorem Accounted.opens (hs : Accounted s) (hcall : s.calls[i]? = some call) {opened : List Connection}
    (hok : CallOk (s.connections ++ opened) i call') (hrequest : call'.request = call.request)
    (hopened : ∀ conn ∈ opened, conn.call = i ∧ conn.request = call.request) :
    Accounted { s with calls := s.calls.set i call', connections := s.connections ++ opened } := by
  constructor
  · intro k old hold
    rcases getElem?_set_cases hcall hold with ⟨rfl, rfl⟩ | ⟨hk, hold⟩
    · exact hok
    · apply (hs.calls k old hold).append
      intro conn hmem
      rw [(hopened conn hmem).1]
      exact hk.symm
  · intro conn hmem
    have hlt := (List.getElem?_eq_some_iff.mp hcall).1
    rcases List.mem_append.mp hmem with hmem | hmem
    · obtain ⟨old, hold, hsame⟩ := hs.connections conn hmem
      obtain ⟨new, hnew, hreq⟩ := exists_getElem?_set hcall hrequest hold
      exact ⟨new, hnew, hreq.trans hsame⟩
    · obtain ⟨hi, hreq⟩ := hopened conn hmem
      exact ⟨call', by simp [hi, hlt], hrequest.trans hreq.symm⟩

/-- The server goes on with a line. -/
theorem Accounted.set_connection (hs : Accounted s) (server : ServerState) (hconn : s.connections[c]? = some conn)
    (hcall : conn'.call = conn.call) (hrequest : conn'.request = conn.request)
    (hopen : ∀ response, conn.line ≠ .serving (.done response)) :
    Accounted { s with server := server, connections := s.connections.set c conn' } := by
  constructor
  · exact fun k old hold => (hs.calls k old hold).set hconn hcall hopen
  · intro other hmem
    obtain ⟨k, hk⟩ := List.mem_iff_getElem?.mp hmem
    rcases getElem?_set_cases hconn hk with ⟨-, rfl⟩ | ⟨-, hk⟩
    · rw [hcall, hrequest]
      exact hs.connections conn (List.mem_iff_getElem?.mpr ⟨c, hconn⟩)
    · exact hs.connections other (List.mem_iff_getElem?.mpr ⟨k, hk⟩)

end Connections

/-- Every step keeps account. -/
theorem Accounted.step {s t : Network} {e : NetworkEvent} (hs : Accounted s)
    (hstep : NetworkStep lib storageDir expectedToken serverAddr s e t) : Accounted t := by
  cases hstep with
  | call request =>
    have hnone : ∀ conn ∈ s.connections, conn.call ≠ s.calls.length := by
      intro conn hmem heq
      obtain ⟨call, hcall, -⟩ := hs.connections conn hmem
      have hlt := (List.getElem?_eq_some_iff.mp hcall).1
      omega
    constructor
    · intro k old hold
      rcases getElem?_concat_iff.mp hold with hold | ⟨rfl, rfl⟩
      · exact hs.calls k old hold
      · exact .new request hnone
    · intro conn hmem
      obtain ⟨call, hcall, hrequest⟩ := hs.connections conn hmem
      exact ⟨call, List.getElem?_append_left (List.getElem?_eq_some_iff.mp hcall).1 ▸ hcall, hrequest⟩
  | sendFails failure hcall hstage =>
    apply hs.opens hcall ((hs.calls _ _ hcall).sendFails hstage failure _) rfl
    intro conn hmem
    simp [SendFailure.eq_of_mem_connections hmem]
  | sends hcall hstage =>
    apply hs.opens hcall ((hs.calls _ _ hcall).sends hstage) rfl
    simp
  | loses hconn hline => exact hs.set_connection s.server hconn rfl rfl (by simp [hline])
  | reads hconn hline => exact hs.set_connection s.server hconn rfl rfl (by simp [hline])
  | serves hconn hline => exact hs.set_connection _ hconn rfl rfl (by simp [hline])
  | replies hcall hstage hconn hline => exact hs.set_call hcall ((hs.calls _ _ hcall).replies hstage hconn hline) rfl
  | readFails failure hcall hstage =>
    have hok := hs.calls _ _ hcall
    exact hs.set_call hcall (callOk_fail hok.opened hok.attempts _) rfl
  | garbles e hcall hstage => exact hs.set_call hcall ((hs.calls _ _ hcall).garbles _) rfl

/-- Every run keeps account. -/
theorem Accounted.exec {s t : Network} {events : List NetworkEvent} (hs : Accounted s)
    (hrun : (network lib storageDir expectedToken serverAddr).exec s events = some t) : Accounted t :=
  Machine.invariant _ Accounted hs (fun _ _ _ h hstep => h.step (networkStep_of_step hstep)) hrun

/-- Nothing has to be known at the start. -/
theorem accounted_start (server : ServerState) : Accounted (.start server) := ⟨nofun, nofun⟩

/-- In every run a call has made at most three attempts, and no more of its lines can reach the server than that. A
call that returns an answer returns one with which the server was done for a line of that call. A call gives up
with an error of the network only after the third attempt. -/
theorem at_most_three_attempts {server : ServerState} {events : List NetworkEvent} {t : Network}
    (hrun : (network lib storageDir expectedToken serverAddr).exec (.start server) events = some t) {i : ℕ}
    {call : Call} (hcall : t.calls[i]? = some call) :
    call.attempts ≤ 3 ∧ (t.connections.map Connection.call).count i ≤ call.attempts ∧
      (∀ reply, call.stage = .returned (.ok reply) → ∃ conn ∈ t.connections, ∃ response,
        conn.call = i ∧ conn.request = call.request ∧ conn.line = .serving (.done response) ∧
          reply = .response response) ∧
      ∀ message, call.stage = .returned (.error (.network message)) → call.attempts = 3 := by
  have haccounted := (accounted_start server).exec hrun
  have hok := haccounted.calls i call hcall
  refine ⟨hok.attempts, hok.opened, ?_, hok.gaveUp⟩
  intro reply hreply
  obtain ⟨conn, hmem, response, rfl, hline, hresponse⟩ := hok.answered reply hreply
  obtain ⟨call', hcall', hrequest⟩ := haccounted.connections conn hmem
  rw [hcall, Option.some.injEq] at hcall'
  subst hcall'
  exact ⟨conn, hmem, response, rfl, hrequest.symm, hline, hresponse⟩

/-! ## How far the server is with a request -/

/-- An access that does not change fingerprints. -/
def ServerOp.KeepsFingerprints (op : ServerOp) : Prop := ∀ key fingerprint, op ≠ .insertFingerprint key fingerprint

/-- Such an access keeps them. -/
theorem ServerOp.KeepsFingerprints.perform {op : ServerOp} (hop : op.KeepsFingerprints) (s : ServerState) :
    (op.perform lib s).2.fingerprints = s.fingerprints := by
  cases op with
  | insertFingerprint key fingerprint => exact absurd rfl (hop key fingerprint)
  | renameFile src dst =>
    simp only [ServerOp.perform]
    cases Files.rename s.files src dst <;> rfl
  | _ => rfl

/-- No access removes a fingerprint. -/
theorem mem_fingerprints_perform {key : String} {s : ServerState} (hmem : key ∈ s.fingerprints) (op : ServerOp) :
    key ∈ (op.perform lib s).2.fingerprints := by
  cases op with
  | insertFingerprint key' fingerprint => exact (AList.mem_insert _).mpr (.inr hmem)
  | _ =>
    rw [ServerOp.KeepsFingerprints.perform (fun _ _ h => by cases h)]
    exact hmem

/-- A program that does not change fingerprints and ends with such a response. -/
abbrev Quiet (Ends : CacheResponse → Prop) (p : ServerM CacheResponse) : Prop :=
  p.Every ServerOp.KeepsFingerprints Ends

/-- Writing a file does not change fingerprints. -/
theorem every_placeFile (tmp target : StoragePath) (bytes : Bytes) :
    (ServerM.placeFile tmp target bytes).Every ServerOp.KeepsFingerprints fun _ => True := by
  refine ⟨nofun, fun written => ?_⟩
  cases written with
  | false => trivial
  | true => exact ⟨nofun, fun _ => trivial⟩

/-- The answer to who asks for a fingerprint. -/
def foundFingerprint (key : String) : Option String → CacheResponse
  | some fp => .fingerprint key true (some fp) none
  | none => .fingerprint key false none none

/-- Storing a fingerprint is one access to memory before others that do not change fingerprints. -/
theorem putFingerprint_eq (key fp : String) : ∃ rest, putFingerprint lib storageDir key fp =
    .next (.insertFingerprint key fp) rest ∧ ∀ r, Quiet (· = .putFingerprintResult key true none) (rest r) := by
  refine ⟨_, rfl, fun r => ?_⟩
  cases storageDir with
  | none => rfl
  | some dir =>
    cases safeKeyIdentifier lib.isAlphanumeric key with
    | none => rfl
    | some safeK => exact (every_placeFile _ _ _).bind fun _ _ => rfl

/-- Finding a fingerprint is one access to memory. -/
theorem getFingerprint_eq (key : String) :
    getFingerprint key = .next (.readFingerprint key) fun result => .done (foundFingerprint key result) := by
  refine congrArg (Program.next (ServerOp.readFingerprint key)) (funext fun result => ?_)
  cases result <;> rfl

/-- Finding an artifact does not change fingerprints. -/
theorem every_getArtifact (hash : String) : Quiet (fun _ => True) (getArtifact lib storageDir hash) := by
  have hobject : (readObject lib storageDir hash).Every ServerOp.KeepsFingerprints fun _ => True := by
    cases storageDir with
    | none => trivial
    | some dir =>
      refine ⟨nofun, fun named => ?_⟩
      change Program.Every _ _ (match named.bind (safeKeyIdentifier lib.isAlphanumeric) with
        | some safeH => ServerM.readFile (objectFile safeH)
        | none => _)
      cases named.bind (safeKeyIdentifier lib.isAlphanumeric) with
      | none => trivial
      | some safeH => exact ⟨nofun, fun _ => trivial⟩
  have hfind : (findArtifact lib storageDir hash).Every ServerOp.KeepsFingerprints fun _ => True := by
    refine ⟨nofun, fun inMemory => ?_⟩
    cases inMemory with
    | some data => trivial
    | none => exact hobject
  apply hfind.bind
  intro data _
  cases data <;> trivial

/-- Storing an artifact does not change fingerprints. -/
theorem every_putArtifact (hash : String) (bytes : Bytes) :
    Quiet (fun _ => True) (putArtifact lib storageDir hash bytes) := by
  refine ⟨nofun, fun _ => ?_⟩
  cases storageDir with
  | none => trivial
  | some dir =>
    cases safeKeyIdentifier lib.isAlphanumeric (lib.blobHash bytes) with
    | none => trivial
    | some safeH =>
      apply Program.Every.bind (every_placeFile _ _ _)
      intro _ _
      refine ⟨nofun, fun _ => ⟨nofun, fun snapshot => ?_⟩⟩
      apply Program.Every.bind (every_placeFile _ _ _)
      intro _ _
      trivial

/-- How far the server can be with a request: what holds of a fingerprint it found, and of one it stored. -/
inductive Standing (lib : Libraries) (storageDir expectedToken : Option String)
    (Found : String → Option String → Prop) (Stored : String → String → Prop) :
    CacheRequest → ServerM CacheResponse → Prop where
  | fresh (request : CacheRequest) :
    Standing lib storageDir expectedToken Found Stored request (processRequest lib storageDir expectedToken request)
  | found {key : String} {token : Option String} {result : Option String} (hfound : Found key result) :
    Standing lib storageDir expectedToken Found Stored (.getFingerprint key token) (.done (foundFingerprint key result))
  | stored {key fp : String} {token : Option String} {p : ServerM CacheResponse} (hstored : Stored key fp)
      (hquiet : Quiet (· = .putFingerprintResult key true none) p) :
    Standing lib storageDir expectedToken Found Stored (.putFingerprint key fp token) p
  | other {request : CacheRequest} {p : ServerM CacheResponse} (hget : ∀ key token, request ≠ .getFingerprint key token)
      (hput : ∀ key fp token, request ≠ .putFingerprint key fp token) (hquiet : Quiet (fun _ => True) p) :
    Standing lib storageDir expectedToken Found Stored request p

/-- What the next access for a request can be. -/
inductive NextAccess (lib : Libraries) (storageDir expectedToken : Option String)
    (Found : String → Option String → Prop) (Stored : String → String → Prop) :
    CacheRequest → ServerM CacheResponse → Prop where
  | read {key : String} {token : Option String} :
    NextAccess lib storageDir expectedToken Found Stored (.getFingerprint key token)
      (.next (.readFingerprint key) fun result => .done (foundFingerprint key result))
  | insert {key fp : String} {token : Option String} {rest : Unit → ServerM CacheResponse}
      (hauth : checkAuth expectedToken token = true)
      (hquiet : ∀ r, Quiet (· = .putFingerprintResult key true none) (rest r)) :
    NextAccess lib storageDir expectedToken Found Stored (.putFingerprint key fp token)
      (.next (.insertFingerprint key fp) rest)
  | quiet {request : CacheRequest} {op : ServerOp} {rest : op.Response → ServerM CacheResponse}
      (hop : op.KeepsFingerprints)
      (hrest : ∀ r, Standing lib storageDir expectedToken Found Stored request (rest r)) :
    NextAccess lib storageDir expectedToken Found Stored request (.next op rest)

section Standings

variable {Found Found' : String → Option String → Prop} {Stored Stored' : String → String → Prop}
  {request : CacheRequest}

/-- What holds of what was found and stored can change. -/
theorem Standing.mono {p : ServerM CacheResponse}
    (hstanding : Standing lib storageDir expectedToken Found Stored request p)
    (hfound : ∀ key result, Found key result → Found' key result)
    (hstored : ∀ key fp, Stored key fp → Stored' key fp) :
    Standing lib storageDir expectedToken Found' Stored' request p := by
  cases hstanding with
  | fresh => exact .fresh request
  | found h => exact .found (hfound _ _ h)
  | stored h hquiet => exact .stored (hstored _ _ h) hquiet
  | other hget hput hquiet => exact .other hget hput hquiet

/-- Requests that are not about fingerprints. -/
theorem quiet_processRequest (hget : ∀ key token, request ≠ .getFingerprint key token)
    (hput : ∀ key fp token, request ≠ .putFingerprint key fp token) :
    Quiet (fun _ => True) (processRequest lib storageDir expectedToken request) := by
  cases request with
  | getFingerprint key token => exact absurd rfl (hget key token)
  | putFingerprint key fp token => exact absurd rfl (hput key fp token)
  | ping token =>
    simp only [processRequest]
    split
    · trivial
    · exact ⟨fun _ _ h => (by cases h), fun _ => trivial⟩
  | getArtifact hash token =>
    simp only [processRequest]
    split
    · trivial
    · exact every_getArtifact hash
  | putArtifact hash data token =>
    simp only [processRequest]
    split
    · trivial
    · split
      · trivial
      · exact every_putArtifact hash _

/-- The server is done or has such an access to do. -/
theorem Standing.next {p : ServerM CacheResponse}
    (hstanding : Standing lib storageDir expectedToken Found Stored request p)
    (hopen : ∀ response, p ≠ .done response) :
    NextAccess lib storageDir expectedToken Found Stored request p := by
  have hquiet : ∀ {Ends : CacheResponse → Prop}, Quiet Ends p →
      (∀ {q}, Quiet Ends q → Standing lib storageDir expectedToken Found Stored request q) →
      NextAccess lib storageDir expectedToken Found Stored request p := by
    intro Ends hp hstands
    cases p with
    | done response => exact absurd rfl (hopen response)
    | next op rest => exact .quiet hp.1 fun r => hstands (hp.2 r)
  cases hstanding with
  | found => exact absurd rfl (hopen _)
  | stored hstored hp => exact hquiet hp (.stored hstored)
  | other hget hput hp => exact hquiet hp (.other hget hput)
  | fresh =>
    cases request with
    | getFingerprint key token =>
      simp only [processRequest] at hopen ⊢
      split
      · rename_i hauth
        rw [if_pos hauth] at hopen
        exact absurd rfl (hopen _)
      · rw [getFingerprint_eq]
        exact .read
    | putFingerprint key fp token =>
      simp only [processRequest] at hopen ⊢
      split
      · rename_i hauth
        rw [if_pos hauth] at hopen
        exact absurd rfl (hopen _)
      · rename_i hauth
        obtain ⟨rest, heq, hrest⟩ : ∃ rest, putFingerprint lib storageDir key fp = .next (.insertFingerprint key fp) rest ∧
            ∀ r, Quiet (· = .putFingerprintResult key true none) (rest r) := putFingerprint_eq key fp
        rw [heq]
        exact .insert (by simpa using hauth) hrest
    | _ =>
      exact hquiet (quiet_processRequest (fun _ _ h => (by cases h)) fun _ _ _ h => (by cases h))
        (.other (fun _ _ h => (by cases h)) fun _ _ _ h => (by cases h))

end Standings

/-! ## Runs -/

section Runs

variable {Found Found' : String → Option String → Prop} {Stored Stored' : String → String → Prop}
  {Which : Connection → Prop} {s t : Network} {e : NetworkEvent} {key fp : String}

variable (lib storageDir expectedToken) in
/-- How far the server is with the requests on such connections. -/
def AllStanding (Found : String → Option String → Prop) (Stored : String → String → Prop) (Which : Connection → Prop)
    (s : Network) : Prop :=
  ∀ conn ∈ s.connections, Which conn → ∀ p, conn.line = .serving p →
    Standing lib storageDir expectedToken Found Stored conn.request p

/-- A step changes a connection at most in what became of its line, and opens those that are new. -/
theorem connection_of_step (hstep : NetworkStep lib storageDir expectedToken serverAddr s e t) {conn : Connection}
    (hmem : conn ∈ t.connections) :
    conn ∈ s.connections ∨
      (conn.line = .sent ∧ ∃ (i : ℕ) (call : Call), s.calls[i]? = some call ∧ call.stage = .between ∧
        conn.request = call.request) ∨ ∃ old ∈ s.connections,
      conn.call = old.call ∧ conn.request = old.request ∧
        (old.line = .sent ∧ (conn.line = .lost ∨
            conn.line = .serving (processRequest lib storageDir expectedToken old.request)) ∨
          ∃ op rest, old.line = .serving (.next op rest) ∧ t.server = (ServerOp.perform lib op s.server).2 ∧
            conn.line = .serving (rest (ServerOp.perform lib op s.server).1)) := by
  have hset : ∀ {c : ℕ} {old conn' : Connection}, s.connections[c]? = some old → conn ∈ s.connections.set c conn' →
      conn ∈ s.connections ∨ (conn = conn' ∧ old ∈ s.connections) := by
    intro c old conn' hold hmem
    rcases List.mem_or_eq_of_mem_set hmem with hmem | heq
    · exact .inl hmem
    · exact .inr ⟨heq, List.mem_iff_getElem?.mpr ⟨c, hold⟩⟩
  cases hstep with
  | call request => exact .inl hmem
  | sendFails failure hcall hstage =>
    rcases List.mem_append.mp hmem with hmem | hmem
    · exact .inl hmem
    · rw [SendFailure.eq_of_mem_connections hmem]
      exact .inr (.inl ⟨rfl, _, _, hcall, hstage, rfl⟩)
  | sends hcall hstage =>
    rcases List.mem_append.mp hmem with hmem | hmem
    · exact .inl hmem
    · rw [List.mem_singleton.mp hmem]
      exact .inr (.inl ⟨rfl, _, _, hcall, hstage, rfl⟩)
  | loses hconn hline =>
    rcases hset hconn hmem with hmem | ⟨rfl, hold⟩
    · exact .inl hmem
    · exact .inr (.inr ⟨_, hold, rfl, rfl, .inl ⟨hline, .inl rfl⟩⟩)
  | reads hconn hline =>
    rcases hset hconn hmem with hmem | ⟨rfl, hold⟩
    · exact .inl hmem
    · exact .inr (.inr ⟨_, hold, rfl, rfl, .inl ⟨hline, .inr rfl⟩⟩)
  | serves hconn hline =>
    rcases hset hconn hmem with hmem | ⟨rfl, hold⟩
    · exact .inl hmem
    · exact .inr (.inr ⟨_, hold, rfl, rfl, .inr ⟨_, _, hline, rfl, rfl⟩⟩)
  | replies hcall hstage hconn hline => exact .inl hmem
  | readFails failure hcall hstage => exact .inl hmem
  | garbles e hcall hstage => exact .inl hmem

/-- What a step does to the fingerprints: nothing, or it stores one for which a call was made. -/
theorem fingerprints_of_step (hstep : NetworkStep lib storageDir expectedToken serverAddr s e t)
    (hall : AllStanding lib storageDir expectedToken Found Stored (fun _ => True) s) :
    t.server.fingerprints = s.server.fingerprints ∨
      ∃ conn ∈ s.connections, ∃ key fp token p, conn.request = .putFingerprint key fp token ∧
        checkAuth expectedToken token = true ∧ conn.line = .serving p ∧ (∀ response, p ≠ .done response) ∧
          t.server.fingerprints = s.server.fingerprints.insert key fp := by
  cases hstep with
  | serves hconn hline =>
    have hmem := List.mem_iff_getElem?.mpr ⟨_, hconn⟩
    have hnext := (hall _ hmem trivial _ hline).next nofun
    generalize hrequest : Connection.request _ = request at hnext
    cases hnext with
    | read => exact .inl rfl
    | insert hauth hquiet => exact .inr ⟨_, hmem, _, _, _, _, hrequest, hauth, hline, nofun, rfl⟩
    | quiet hop hrest => exact .inl (hop.perform s.server)
  | _ => exact .inl rfl

/-- A step removes no fingerprint. -/
theorem mem_fingerprints_of_step (hstep : NetworkStep lib storageDir expectedToken serverAddr s e t)
    (hmem : key ∈ s.server.fingerprints) : key ∈ t.server.fingerprints := by
  cases hstep with
  | serves hconn hline => exact mem_fingerprints_perform hmem _
  | _ => exact hmem

/-- A run removes no fingerprint. -/
theorem mem_fingerprints_of_exec {events : List NetworkEvent}
    (hrun : (network lib storageDir expectedToken serverAddr).exec s events = some t)
    (hmem : key ∈ s.server.fingerprints) : key ∈ t.server.fingerprints :=
  Machine.invariant _ (fun t => key ∈ t.server.fingerprints) hmem
    (fun _ _ _ h hstep => mem_fingerprints_of_step (networkStep_of_step hstep) h) hrun

/-- A fingerprint that is found is the one that the server has, and one that is stored is there. -/
theorem AllStanding.step (hall : AllStanding lib storageDir expectedToken Found Stored Which s)
    (hstep : NetworkStep lib storageDir expectedToken serverAddr s e t)
    (hwhich : ∀ conn conn' : Connection, conn.call = conn'.call → Which conn → Which conn')
    (hfound : ∀ key result, Found key result → Found' key result)
    (hstored : ∀ key fp, Stored key fp → Stored' key fp)
    (hread : ∀ key, Found' key (s.server.fingerprints.lookup key))
    (hinsert : ∀ key fp, t.server.fingerprints = s.server.fingerprints.insert key fp → Stored' key fp) :
    AllStanding lib storageDir expectedToken Found' Stored' Which t := by
  intro conn hmem hconn p hline
  rcases connection_of_step hstep hmem with hmem | ⟨hsent, -⟩ | ⟨old, hold, hcall, hrequest, hcases⟩
  · exact (hall conn hmem hconn p hline).mono hfound hstored
  · rw [hsent] at hline
    cases hline
  · rw [hrequest]
    have hwas := hall old hold (hwhich _ _ hcall hconn)
    rcases hcases with ⟨-, hlost | hserving⟩ | ⟨op, rest, hnext, hserver, hserving⟩
    · rw [hlost] at hline
      cases hline
    · rw [hserving] at hline
      cases hline
      exact .fresh _
    · rw [hserving] at hline
      cases hline
      have hnext := (hwas _ hnext).next nofun
      generalize old.request = request at hnext
      cases hnext with
      | read => exact .found (hread _)
      | insert hauth hquiet =>
        refine .stored (hinsert _ _ ?_) (hquiet _)
        rw [hserver]
        rfl
      | quiet hop hrest => exact (hrest _).mono hfound hstored

/-- A call keeps its place and its request. -/
theorem call_of_step (hstep : NetworkStep lib storageDir expectedToken serverAddr s e t) {i : ℕ} {call : Call}
    (hcall : s.calls[i]? = some call) : ∃ call', t.calls[i]? = some call' ∧ call'.request = call.request := by
  cases hstep with
  | call request => exact ⟨call, List.getElem?_append_left (List.getElem?_eq_some_iff.mp hcall).1 ▸ hcall, rfl⟩
  | sendFails failure hold hstage => exact exists_getElem?_set hold rfl hcall
  | sends hold hstage => exact exists_getElem?_set hold rfl hcall
  | replies hold hstage hconn hline => exact exists_getElem?_set hold rfl hcall
  | readFails failure hold hstage => exact exists_getElem?_set hold rfl hcall
  | garbles e hold hstage => exact exists_getElem?_set hold rfl hcall
  | _ => exact ⟨call, hcall, rfl⟩

variable (expectedToken) in
/-- A fingerprint was there at the start, or a call was made that stores it. -/
def Written (start : ServerState) (s : Network) (key fp : String) : Prop :=
  start.fingerprints.lookup key = some fp ∨
    ∃ (i : ℕ) (call : Call) (token : Option String), s.calls[i]? = some call ∧
      call.request = .putFingerprint key fp token ∧ checkAuth expectedToken token = true

/-- What the calls account for: the fingerprints of the server, and those that were found and stored. -/
structure Regular (lib : Libraries) (storageDir expectedToken : Option String) (start : ServerState)
    (s : Network) : Prop where
  accounted : Accounted s
  written : ∀ key fp, s.server.fingerprints.lookup key = some fp → Written expectedToken start s key fp
  standing : AllStanding lib storageDir expectedToken (fun key result => ∀ fp, result = some fp → Written expectedToken start s key fp)
    (fun key _ => key ∈ s.server.fingerprints) (fun _ => True) s

/-- Every step is accounted for. -/
theorem Regular.step {start : ServerState} (hs : Regular lib storageDir expectedToken start s)
    (hstep : NetworkStep lib storageDir expectedToken serverAddr s e t) :
    Regular lib storageDir expectedToken start t := by
  have hwritten : ∀ key fp, Written expectedToken start s key fp → Written expectedToken start t key fp := by
    intro key fp h
    rcases h with h | ⟨i, call, token, hcall, hrequest, hauth⟩
    · exact .inl h
    · obtain ⟨call', hcall', hsame⟩ := call_of_step hstep hcall
      exact .inr ⟨i, call', token, hcall', hsame.trans hrequest, hauth⟩
  refine ⟨hs.accounted.step hstep, ?_, ?_⟩
  · intro key fp hlookup
    rcases fingerprints_of_step hstep hs.standing with hsame | ⟨conn, hmem, key', fp', token, p, hrequest, hauth, -, -, hnew⟩
    · rw [hsame] at hlookup
      exact hwritten key fp (hs.written key fp hlookup)
    · rw [hnew] at hlookup
      by_cases hkey : key = key'
      · subst hkey
        rw [AList.lookup_insert, Option.some.injEq] at hlookup
        subst hlookup
        obtain ⟨call, hcall, hsame⟩ := hs.accounted.connections conn hmem
        exact hwritten key fp' (.inr ⟨_, call, token, hcall, hsame.trans hrequest, hauth⟩)
      · rw [AList.lookup_insert_ne hkey] at hlookup
        exact hwritten key fp (hs.written key fp hlookup)
  · refine hs.standing.step hstep (fun _ _ _ h => h) ?_ (fun _ _ => mem_fingerprints_of_step hstep) ?_ ?_
    · exact fun key result h fp hresult => hwritten key fp (h fp hresult)
    · exact fun key fp hlookup => hwritten key fp (hs.written key fp hlookup)
    · intro key fp hnew
      rw [hnew]
      exact (AList.mem_insert _).mpr (.inl rfl)

/-- Every run is accounted for. -/
theorem Regular.exec {start : ServerState} {events : List NetworkEvent}
    (hs : Regular lib storageDir expectedToken start s)
    (hrun : (network lib storageDir expectedToken serverAddr).exec s events = some t) :
    Regular lib storageDir expectedToken start t :=
  Machine.invariant _ (Regular lib storageDir expectedToken start) hs
    (fun _ _ _ h hstep => h.step (networkStep_of_step hstep)) hrun

/-- Nothing has to be accounted for at the start. -/
theorem regular_start (start : ServerState) : Regular lib storageDir expectedToken start (.start start) :=
  ⟨accounted_start start, fun _ _ h => .inl h, nofun⟩

/-! ## What clients see -/

/-- What a client gets that asks for a fingerprint. -/
def fingerprintResult : Reply → Except RemoteCacheError (Option String)
  | .response (.fingerprint _ found fingerprint error) =>
    match error with
    | some err => .error (.protocol err)
    | none => if found then .ok fingerprint else .ok none
  | .error message => .error (.protocol message)
  | _ => .error (.protocol "unexpected response to get_fingerprint")

/-- What a client gets that stores a fingerprint. -/
def putFingerprintResult : Reply → Except RemoteCacheError Unit
  | .response (.putFingerprintResult _ success error) =>
    match error with
    | some err => .error (.protocol err)
    | none => if success then .ok () else .error (.protocol "failed to put fingerprint")
  | .error message => .error (.protocol message)
  | _ => .error (.protocol "unexpected response to put_fingerprint")

/-- What the method of a call returns, once the call has returned. -/
def Call.result {α : Type} (interpret : Reply → Except RemoteCacheError α) (call : Call) :
    Option (Except RemoteCacheError α) :=
  match call.stage with
  | .returned (.ok reply) => some (interpret reply)
  | .returned (.error err) => some (.error err)
  | _ => none

/-- A call that returned a value has a connection that the server is done with. -/
theorem Accounted.of_result {α : Type} (hs : Accounted s) {i : ℕ} {call : Call}
    {interpret : Reply → Except RemoteCacheError α} {value : α} (hcall : s.calls[i]? = some call)
    (hresult : call.result interpret = some (.ok value)) : ∃ conn ∈ s.connections, ∃ response, conn.call = i ∧
      conn.request = call.request ∧ conn.line = .serving (.done response) ∧
        interpret (.response response) = .ok value := by
  simp only [Call.result] at hresult
  split at hresult
  · rename_i reply hstage
    obtain ⟨conn, hmem, response, hi, hline, rfl⟩ := (hs.calls i call hcall).answered _ hstage
    obtain ⟨call', hcall', hrequest⟩ := hs.connections conn hmem
    rw [hi, hcall, Option.some.injEq] at hcall'
    subst hcall'
    exact ⟨conn, hmem, response, hi, hrequest.symm, hline, Option.some.inj hresult⟩
  · cases hresult
  · cases hresult

/-- What a client finds is what the server found. -/
theorem Standing.found_of_done {token : Option String} {response : CacheResponse} {result : Option String}
    (hstanding : Standing lib storageDir expectedToken Found Stored (.getFingerprint key token) (.done response))
    (hresult : fingerprintResult (.response response) = .ok result) : Found key result := by
  generalize hp : Program.done response = p at hstanding
  cases hstanding with
  | fresh =>
    simp only [processRequest] at hp
    split at hp
    · cases hp
      cases hresult
    · cases hp
  | @found _ _ result' hfound =>
    cases hp
    cases result' <;> cases hresult <;> exact hfound
  | other hget => exact absurd rfl (hget _ _)

/-- What a client has stored was stored by the server. -/
theorem Standing.stored_of_done {token : Option String} {response : CacheResponse}
    (hstanding : Standing lib storageDir expectedToken Found Stored (.putFingerprint key fp token) (.done response))
    (hresult : putFingerprintResult (.response response) = .ok ()) : Stored key fp := by
  generalize hp : Program.done response = p at hstanding
  cases hstanding with
  | fresh =>
    simp only [processRequest] at hp
    split at hp
    · cases hp
      cases hresult
    · cases hp
  | stored hstored => exact hstored
  | other _ hput => exact absurd rfl (hput _ _ _)

/-- A call keeps its place and its request in a run. -/
theorem call_of_exec {events : List NetworkEvent} {i : ℕ} {call : Call} (hcall : s.calls[i]? = some call)
    (hrun : (network lib storageDir expectedToken serverAddr).exec s events = some t) :
    ∃ call', t.calls[i]? = some call' ∧ call'.request = call.request := by
  refine Machine.invariant _ (fun t => ∃ call', t.calls[i]? = some call' ∧ call'.request = call.request)
    ⟨call, hcall, rfl⟩ ?_ hrun
  intro s' e t' h hstep
  obtain ⟨old, hold, hsame⟩ := h
  obtain ⟨new, hnew, hrequest⟩ := call_of_step (networkStep_of_step hstep) hold
  exact ⟨new, hnew, hrequest.trans hsame⟩

/-- A call that begins has its place after those before it. -/
theorem exec_call {request : CacheRequest} {events : List NetworkEvent}
    (hrun : (network lib storageDir expectedToken serverAddr).exec s (.call request :: events) = some t) :
    (network lib storageDir expectedToken serverAddr).exec { s with calls := s.calls ++ [.new request] } events = some t ∧
      ∀ call, t.calls[s.calls.length]? = some call → call.request = request := by
  have hrest : (network lib storageDir expectedToken serverAddr).exec
      { s with calls := s.calls ++ [.new request] } events = some t := hrun
  refine ⟨hrest, fun call hcall => ?_⟩
  obtain ⟨call', hcall', hsame⟩ := call_of_exec (getElem?_concat_iff.mpr (.inr ⟨rfl, rfl⟩)) hrest
  rw [hcall, Option.some.injEq] at hcall'
  subst hcall'
  exact hsame

/-- What the server has for a key is good, and so is what calls find for it that began late enough. -/
structure FindsGood (lib : Libraries) (storageDir expectedToken : Option String) (Good : Option String → Prop)
    (key : String) (first : ℕ) (s : Network) : Prop where
  lookup : Good (s.server.fingerprints.lookup key)
  standing : AllStanding lib storageDir expectedToken (fun key' result => key' = key → Good result) (fun _ _ => True)
    (fun conn => first ≤ conn.call) s

/-- It stays so if what the server has stays good. -/
theorem FindsGood.step {Good : Option String → Prop} {first : ℕ}
    (hs : FindsGood lib storageDir expectedToken Good key first s)
    (hstep : NetworkStep lib storageDir expectedToken serverAddr s e t)
    (hlookup : Good (t.server.fingerprints.lookup key)) :
    FindsGood lib storageDir expectedToken Good key first t := by
  refine ⟨hlookup, hs.standing.step hstep ?_ (fun _ _ h => h) (fun _ _ h => h) ?_ fun _ _ _ => trivial⟩
  · intro conn conn' hcall hle
    exact hcall ▸ hle
  · rintro _ rfl
    exact hs.lookup

/-- No connection is there of a call that has not begun. -/
theorem Accounted.allStanding (hs : Accounted s) :
    AllStanding lib storageDir expectedToken Found Stored (fun conn => s.calls.length ≤ conn.call) s := by
  intro conn hmem hle
  obtain ⟨call, hcall, -⟩ := hs.connections conn hmem
  exact absurd (List.getElem?_eq_some_iff.mp hcall).1 (by omega)

/-- It is so when no such call has begun. -/
theorem Accounted.findsGood {Good : Option String → Prop} (hs : Accounted s)
    (hlookup : Good (s.server.fingerprints.lookup key)) :
    FindsGood lib storageDir expectedToken Good key s.calls.length s := ⟨hlookup, hs.allStanding⟩

/-- A call that began late enough finds what is good. -/
theorem FindsGood.of_result {Good : Option String → Prop} {first i : ℕ} {call : Call} {token result : Option String}
    (hs : FindsGood lib storageDir expectedToken Good key first s) (haccounted : Accounted s) (hle : first ≤ i)
    (hcall : s.calls[i]? = some call) (hrequest : call.request = .getFingerprint key token)
    (hresult : call.result fingerprintResult = some (.ok result)) : Good result := by
  obtain ⟨conn, hmem, response, rfl, hsame, hline, hok⟩ := haccounted.of_result hcall hresult
  have hstanding := hs.standing conn hmem hle _ hline
  rw [hsame, hrequest] at hstanding
  exact hstanding.found_of_done hok rfl

/-- Clients of a shared cache see a regular register for each key, however lines are lost, delayed and sent again: a
call that finds a fingerprint finds one that was there at the start or for which a call was made, and a call that
finds none began before any call returned that stored one. -/
theorem getFingerprint_regular {start : ServerState} {before after : List NetworkEvent} {token result : Option String}
    (hbefore : (network lib storageDir expectedToken serverAddr).exec (.start start) before = some s)
    (hafter : (network lib storageDir expectedToken serverAddr).exec s (.call (.getFingerprint key token) :: after) = some t)
    {call : Call} (hcall : t.calls[s.calls.length]? = some call)
    (hresult : call.result fingerprintResult = some (.ok result)) :
    (∀ fp, result = some fp → Written expectedToken start t key fp) ∧
      (result = none → start.fingerprints.lookup key = none ∧
        ∀ (i : ℕ) (put : Call) (fp : String) (token' : Option String), s.calls[i]? = some put →
          put.request = .putFingerprint key fp token' → put.result putFingerprintResult ≠ some (.ok ())) := by
  have hs := (regular_start start).exec hbefore
  have ht := hs.exec hafter
  have hrequest := (exec_call hafter).2 call hcall
  -- what the server has stays there, so that later calls find it
  have hfinds : key ∈ s.server.fingerprints → result ≠ none := by
    intro hmem
    have hsome : ∀ s' : Network, key ∈ s'.server.fingerprints → s'.server.fingerprints.lookup key ≠ none :=
      fun s' hmem hnone => AList.lookup_eq_none.mp hnone hmem
    have hgood : key ∈ t.server.fingerprints ∧
        FindsGood lib storageDir expectedToken (· ≠ none) key s.calls.length t := by
      refine Machine.invariant _ (fun t => key ∈ t.server.fingerprints ∧
        FindsGood lib storageDir expectedToken (· ≠ none) key s.calls.length t)
        ⟨hmem, hs.accounted.findsGood (hsome s hmem)⟩ ?_ hafter
      intro s' e t' h hstep
      have hmem' := mem_fingerprints_of_step (networkStep_of_step hstep) h.1
      exact ⟨hmem', h.2.step (networkStep_of_step hstep) (hsome t' hmem')⟩
    exact hgood.2.of_result ht.accounted le_rfl hcall hrequest hresult
  constructor
  · obtain ⟨conn, hmem, response, -, hsame, hline, hok⟩ := ht.accounted.of_result hcall hresult
    have hstanding := ht.standing conn hmem trivial _ hline
    rw [hsame, hrequest] at hstanding
    exact hstanding.found_of_done hok
  · intro hnone
    constructor
    · by_contra h
      have hstart : key ∈ start.fingerprints := by
        by_contra hnot
        exact h (AList.lookup_eq_none.mpr hnot)
      exact hfinds (mem_fingerprints_of_exec hbefore hstart) hnone
    · intro i put fp token' hput hputRequest hputResult
      obtain ⟨conn, hmem, response, -, hsame, hline, hok⟩ := hs.accounted.of_result hput hputResult
      have hstanding := hs.standing conn hmem trivial _ hline
      rw [hsame, hputRequest] at hstanding
      exact hfinds (hstanding.stored_of_done hok) hnone

/-! ## Lines of calls that were given up -/

/-- A call has returned. -/
def Call.Returned (call : Call) : Prop := ∃ result, call.stage = .returned result

/-- The server will not touch the line of a connection any more. -/
def Connection.Over (conn : Connection) : Prop := conn.line = .lost ∨ ∃ response, conn.line = .serving (.done response)

/-- Whatever stores another fingerprint for a key is over: calls have returned, and lines are lost or done with. -/
structure OthersOver (key fp : String) (s : Network) : Prop where
  calls : ∀ (i : ℕ) (call : Call) (fp' : String) (token : Option String), s.calls[i]? = some call →
    call.request = .putFingerprint key fp' token → fp' = fp ∨ call.Returned
  connections : ∀ conn ∈ s.connections, ∀ (fp' : String) (token : Option String),
    conn.request = .putFingerprint key fp' token → fp' = fp ∨ conn.Over

/-- A call that begins does not store another fingerprint for a key. -/
def NetworkEvent.Stores (key fp : String) (e : NetworkEvent) : Prop :=
  ∀ fp' token, e = .call (.putFingerprint key fp' token) → fp' = fp

/-- It stays so while no call stores another one. -/
theorem OthersOver.step (hs : OthersOver key fp s) (hstep : NetworkStep lib storageDir expectedToken serverAddr s e t)
    (hstores : e.Stores key fp) : OthersOver key fp t := by
  have hopen : ∀ {i : ℕ} {call : Call}, s.calls[i]? = some call → (∀ result, call.stage ≠ .returned result) →
      ∀ fp' token, call.request = .putFingerprint key fp' token → fp' = fp := by
    intro i call hcall hstage fp' token hrequest
    rcases hs.calls i call fp' token hcall hrequest with heq | ⟨result, hreturned⟩
    · exact heq
    · exact absurd hreturned (hstage result)
  constructor
  · have hset : ∀ {i k : ℕ} {call call' other : Call} {fp' : String} {token : Option String},
        s.calls[i]? = some call → (s.calls.set i call')[k]? = some other → call'.request = call.request →
          (∀ result, call.stage ≠ .returned result) → other.request = .putFingerprint key fp' token →
            fp' = fp ∨ other.Returned := by
      intro i k call call' other fp' token hcall hother hsame hstage hrequest
      rcases getElem?_set_cases hcall hother with ⟨-, rfl⟩ | ⟨-, hother⟩
      · exact .inl (hopen hcall hstage fp' token (hsame.symm.trans hrequest))
      · exact hs.calls k other fp' token hother hrequest
    intro k other fp' token hother hrequest
    cases hstep with
    | call request =>
      rcases getElem?_concat_iff.mp hother with hother | ⟨-, rfl⟩
      · exact hs.calls k other fp' token hother hrequest
      · exact .inl (hstores fp' token (congrArg NetworkEvent.call hrequest))
    | sendFails failure hcall hstage => exact hset hcall hother rfl (by simp [hstage]) hrequest
    | sends hcall hstage => exact hset hcall hother rfl (by simp [hstage]) hrequest
    | replies hcall hstage hconn hline => exact hset hcall hother rfl (by simp [hstage]) hrequest
    | readFails failure hcall hstage => exact hset hcall hother rfl (by simp [hstage]) hrequest
    | garbles e hcall hstage => exact hset hcall hother rfl (by simp [hstage]) hrequest
    | _ => exact hs.calls k other fp' token hother hrequest
  · intro conn hmem fp' token hrequest
    rcases connection_of_step hstep hmem with hmem | ⟨-, i, call, hcall, hstage, hsame⟩ | ⟨old, hold, -, hsame, hcases⟩
    · exact hs.connections conn hmem fp' token hrequest
    · exact .inl (hopen hcall (by simp [hstage]) fp' token (hsame.symm.trans hrequest))
    · rcases hs.connections old hold fp' token (hsame.symm.trans hrequest) with heq | hlost | ⟨response, hdone⟩
      · exact .inl heq
      · rcases hcases with ⟨hline, -⟩ | ⟨_, _, hline, -⟩ <;> simp [hline] at hlost
      · rcases hcases with ⟨hline, -⟩ | ⟨_, _, hline, -⟩ <;> simp [hline] at hdone

/-- Nothing else is stored for the key then. -/
theorem OthersOver.lookup_of_step (hs : OthersOver key fp s)
    (hall : AllStanding lib storageDir expectedToken Found Stored (fun _ => True) s)
    (hstep : NetworkStep lib storageDir expectedToken serverAddr s e t)
    (hlookup : s.server.fingerprints.lookup key = some fp) : t.server.fingerprints.lookup key = some fp := by
  rcases fingerprints_of_step hstep hall with hsame | ⟨conn, hmem, key', fp', token, p, hrequest, -, hline, hopen, hnew⟩
  · rwa [hsame]
  · rw [hnew]
    by_cases hkey : key = key'
    · subst hkey
      rw [AList.lookup_insert, Option.some.injEq]
      rcases hs.connections conn hmem fp' token hrequest with heq | hlost | ⟨response, hdone⟩
      · exact heq
      · simp [hline] at hlost
      · simp [hline] at hdone
        exact absurd hdone (hopen response)
    · rwa [AList.lookup_insert_ne hkey]

/-- A client reads what it has stored, if whatever stores another fingerprint for the key was over when it began to,
and nothing else is stored since. A line of a call that was given up can undo what was stored after it. -/
theorem getFingerprint_reads_own_put {start : ServerState} {before between after : List NetworkEvent}
    {s₀ s₁ s₂ : Network} {token token' result : Option String}
    (hbefore : (network lib storageDir expectedToken serverAddr).exec (.start start) before = some s₀)
    (hothers : OthersOver key fp s₀)
    (hbetween : (network lib storageDir expectedToken serverAddr).exec s₀
      (.call (.putFingerprint key fp token) :: between) = some s₁)
    (hafter : (network lib storageDir expectedToken serverAddr).exec s₁
      (.call (.getFingerprint key token') :: after) = some s₂)
    (hstores : ∀ e ∈ between ++ after, e.Stores key fp) {put get : Call}
    (hput : s₁.calls[s₀.calls.length]? = some put) (hputResult : put.result putFingerprintResult = some (.ok ()))
    (hget : s₂.calls[s₁.calls.length]? = some get)
    (hgetResult : get.result fingerprintResult = some (.ok result)) : result = some fp := by
  have hs₀ := (regular_start start).exec hbefore
  have hs₁ := hs₀.exec hbetween
  have hs₂ := hs₁.exec hafter
  -- what the server is done with, of the lines of the call, was stored and has stayed
  have hstored : OthersOver key fp s₁ ∧ AllStanding lib storageDir expectedToken (fun _ _ => True)
      (fun key' fp' => key' = key → fp' = fp → s₁.server.fingerprints.lookup key = some fp)
      (fun conn => s₀.calls.length ≤ conn.call) s₁ := by
    refine (Machine.invariant_along _ (fun s => Regular lib storageDir expectedToken start s ∧ OthersOver key fp s ∧
      AllStanding lib storageDir expectedToken (fun _ _ => True)
        (fun key' fp' => key' = key → fp' = fp → s.server.fingerprints.lookup key = some fp)
        (fun conn => s₀.calls.length ≤ conn.call) s) (fun _ e => e.Stores key fp) ?_ ⟨hs₀, hothers, ?_⟩
      (Machine.along_of_forall _ ?_) hbetween).2
    · intro s e t h hok hstep
      have hstep := networkStep_of_step hstep
      have hkeeps := h.2.1.lookup_of_step h.1.standing hstep
      refine ⟨h.1.step hstep, h.2.1.step hstep hok, h.2.2.step hstep ?_ (fun _ _ h => h) ?_ (fun _ => trivial) ?_⟩
      · intro conn conn' hcall hle
        exact hcall ▸ hle
      · exact fun key' fp' h hkey hfp => hkeeps (h hkey hfp)
      · rintro _ _ hnew rfl rfl
        rw [hnew, AList.lookup_insert]
    · exact hs₀.accounted.allStanding
    · simpa [NetworkEvent.Stores] using fun e he => hstores e (List.mem_append_left _ he)
  have hlookup : s₁.server.fingerprints.lookup key = some fp := by
    obtain ⟨conn, hmem, response, hi, hsame, hline, hok⟩ := hs₁.accounted.of_result hput hputResult
    have hstanding := hstored.2 conn hmem hi.ge _ hline
    rw [hsame, (exec_call hbetween).2 put hput] at hstanding
    exact hstanding.stored_of_done hok rfl rfl
  have hfinds : FindsGood lib storageDir expectedToken (· = some fp) key s₁.calls.length s₂ := by
    refine (Machine.invariant_along _ (fun s => Regular lib storageDir expectedToken start s ∧ OthersOver key fp s ∧
      FindsGood lib storageDir expectedToken (· = some fp) key s₁.calls.length s) (fun _ e => e.Stores key fp) ?_
      ⟨hs₁, hstored.1, hs₁.accounted.findsGood hlookup⟩ (Machine.along_of_forall _ ?_) hafter).2.2
    · intro s e t h hok hstep
      have hstep := networkStep_of_step hstep
      exact ⟨h.1.step hstep, h.2.1.step hstep hok,
        h.2.2.step hstep (h.2.1.lookup_of_step h.1.standing hstep h.2.2.lookup)⟩
    · simpa [NetworkEvent.Stores] using fun e he => hstores e (List.mem_append_right _ he)
  exact hfinds.of_result hs₂.accounted le_rfl hget ((exec_call hafter).2 get hget) hgetResult

end Runs

end Steps

/-! ## A call that tries again -/

/-- The first call gives up its first line, and its second one is served. -/
def retried : List NetworkEvent := [.sends 0, .readFails 0 .empty, .sends 0, .reads 1, .serves 1, .replies 0]

/-- The second call is answered at once. -/
def served : List NetworkEvent := [.sends 1, .reads 2, .serves 2, .replies 1]

/-- A call that has stored a fingerprint in two attempts. -/
def putCall : Call :=
  ⟨.putFingerprint "k" "v" none, 2, .protocol "empty response from server",
    .returned (.ok (.response (.putFingerprintResult "k" true none)))⟩

/-- A call that has found it. -/
def getCall : Call :=
  ⟨.getFingerprint "k" none, 1, .network "failed to connect",
    .returned (.ok (.response (.fingerprint "k" true (some "v") none)))⟩

/-- The network after the first call. Its first line is still on its way. -/
def storedNetwork : Network :=
  ⟨⟨(∅ : Table).insert "k" "v", ∅, ∅, ∅⟩, [putCall],
    [⟨0, putCall.request, .sent⟩, ⟨0, putCall.request, .serving (.done (.putFingerprintResult "k" true none))⟩]⟩

/-- The network after the second call. -/
def foundNetwork : Network :=
  ⟨storedNetwork.server, [putCall, getCall],
    storedNetwork.connections ++ [⟨1, getCall.request, .serving (.done (.fingerprint "k" true (some "v") none))⟩]⟩

/-- A network without a call. -/
def emptyNetwork : Network := .start ⟨∅, ∅, ∅, ∅⟩

/-- The run of the first call. -/
theorem exec_retried : (network sampleLibraries none none "cache").exec emptyNetwork
    (.call (.putFingerprint "k" "v" none) :: retried) = some storedNetwork := rfl

/-- The run of the second call. -/
theorem exec_served : (network sampleLibraries none none "cache").exec storedNetwork
    (.call (.getFingerprint "k" none) :: served) = some foundNetwork := rfl

/-- A call that tries again has opened no more connections than it has made attempts. -/
theorem at_most_three_attempts_retried :
    (storedNetwork.connections.map Connection.call).count 0 ≤ putCall.attempts :=
  (at_most_three_attempts exec_retried (show storedNetwork.calls[0]? = some putCall from rfl)).2.1

/-- A call finds what one has stored that tried again. -/
theorem getFingerprint_regular_retried : Written none ⟨∅, ∅, ∅, ∅⟩ foundNetwork "k" "v" :=
  (getFingerprint_regular exec_retried exec_served
    (show foundNetwork.calls[storedNetwork.calls.length]? = some getCall from rfl) rfl).1 "v" rfl

/-- A client reads what it has stored in two attempts. -/
theorem getFingerprint_reads_own_put_retried :
    ∃ result, getCall.result fingerprintResult = some (.ok result) ∧ result = some "v" := by
  have hnone : (network sampleLibraries none none "cache").exec (.start ⟨∅, ∅, ∅, ∅⟩) [] = some emptyNetwork := rfl
  have hothers : OthersOver "k" "v" emptyNetwork :=
    ⟨by simp [emptyNetwork, Network.start], by simp [emptyNetwork, Network.start]⟩
  have hstores : ∀ e ∈ retried ++ served, e.Stores "k" "v" := by
    simp [NetworkEvent.Stores, retried, served]
  have hput : storedNetwork.calls[emptyNetwork.calls.length]? = some putCall := rfl
  have hget : foundNetwork.calls[storedNetwork.calls.length]? = some getCall := rfl
  exact ⟨some "v", rfl, getFingerprint_reads_own_put hnone hothers exec_retried exec_served hstores hput rfl hget rfl⟩

-- A line that was given up is served late, after another call has stored something else.
example : ((network sampleLibraries none none "cache").exec
    ⟨⟨(∅ : Table).insert "k" "new", ∅, ∅, ∅⟩, [putCall], [⟨0, putCall.request, .sent⟩]⟩ [.reads 0, .serves 0]).map
      (fun t => t.server.fingerprints.lookup "k") = some (some "v") := rfl

end Forge.RemoteCache
