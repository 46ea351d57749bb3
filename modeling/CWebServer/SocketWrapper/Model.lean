import CWebServer.Lib.Runs
import CWebServer.Strings.Model
import Mathlib.Logic.Function.Basic

/-!
# SocketWrapper — Model

`tcp_socket_wrapper.c` as a step system: a thread that calls
`tcp_socket_wrapper_init` and then `tcp_socket_wrapper_dealloc`, the thread
that it starts and joins, and the rest of the program, which closes the
connections it is handed and opens descriptors of its own. A step is one
system call or the code between two. What a call returns is a choice of the
action; the kernel hands out any number of which no file is open.

`inet_pton` and `inet_ntop` are parameters. The texts of addresses are bytes
without the final 0, their memory is left out, and so is logging. A number
that `select` can wait for is below `FD_SETSIZE`; the model does not check it.
-/

namespace CWebServer.SocketWrapper

open CWebServer.Strings

/-- `inet_pton` and `inet_ntop`. -/
structure Inet where
  pton4 : Bytes → Option (BitVec 32)
  pton6 : Bytes → Option (BitVec 128)
  ntop4 : BitVec 32 → Bytes
  ntop6 : BitVec 128 → Bytes

/-- `struct sockaddr` with its family; ports are in network byte order. -/
inductive Sockaddr
  | inet (sinAddr : BitVec 32) (sinPort : UInt16)
  | inet6 (sin6Addr : BitVec 128) (sin6Port : UInt16)
  | other
deriving DecidableEq, Repr

/-- `htons` where the low byte comes first in memory. -/
def htons (x : UInt16) : UInt16 := .ofNat (x.toNat % 256 * 256 + x.toNat / 256)

def ntohs (x : UInt16) : UInt16 := htons x

/-- `get_sockaddr_info_str`. -/
def getSockaddrInfoStr (net : Inet) : Sockaddr → Option (Bytes × UInt16)
  | .inet addr port => some (net.ntop4 addr, ntohs port)
  | .inet6 addr port => some (net.ntop6 addr, ntohs port)
  | .other => none

/-- The address that `tcp_socket_wrapper_init` binds to, from its arguments. -/
def requestedAddress (net : Inet) (address : Option Bytes) (port : UInt16) : Option Sockaddr :=
  let address := address.getD (ascii "::")
  match net.pton4 address with
  | some addr => some (.inet addr (htons port))
  | none =>
      match net.pton6 address with
      | some addr => some (.inet6 addr (htons port))
      | none => none

/-- `tcp_socket_wrapper`, without the thread and `callback_data`. -/
structure TcpSocketWrapper where
  callback : Bool := false
  socket : Int := 0
  address : Bytes := []
  port : UInt16 := 0
  running : Bool := false
  threadIsInit : Bool := false
deriving DecidableEq, Repr

/-- The arguments of `tcp_socket_wrapper_init`; `callback` says whether there
is one. -/
structure InitArgs where
  address : Option Bytes
  port : UInt16
  callback : Bool
deriving DecidableEq, Repr

/-- What a descriptor is open for. -/
inductive OpenFile
  | listening
  | connection (n : Nat)   -- the `n`th that was accepted
  | other
deriving DecidableEq, Repr

/-- Where the calls of `tcp_socket_wrapper_init` and
`tcp_socket_wrapper_dealloc` stand. -/
inductive OwnerPc
  | resolve                      -- before `inet_pton`
  | info (addr : Sockaddr)       -- before `get_sockaddr_info_str`
  | callback (addr : Sockaddr)   -- before the test of `callback`
  | socket (addr : Sockaddr)
  | setsockopt (addr : Sockaddr)
  | bind (addr : Sockaddr)
  | listen
  | setRunning
  | createThread
  | setThreadIsInit
  | cleanup                      -- at `DONE` with a result that is not 0
  | initFailed
  | started                      -- `tcp_socket_wrapper_init` has returned 0
  | join
  | close
  | deallocated
deriving DecidableEq, Repr

/-- Where `tcp_socket_wrapper_thread` stands. -/
inductive ThreadPc
  | notStarted
  | testing                                            -- before the test of `running`
  | selecting
  | accepting
  | address (n : Nat) (socket : Int) (addr : Sockaddr)  -- before `get_sockaddr_info_str`
  | drop (n : Nat) (socket : Int)                      -- before `close(accepted_socket)`
  | calling                                            -- in the callback
  | exited
deriving DecidableEq, Repr

/-- What becomes of the `n`th connection. -/
inductive Event
  | handed (n : Nat) (address : Bytes) (port : UInt16) (socket : Int)   -- to the callback
  | dropped (n : Nat)
deriving DecidableEq, Repr

def Event.conn : Event → Nat
  | .handed n _ _ _ => n
  | .dropped n => n

/-- The wrapper, its threads and the files of the process. `opened` is what
`socket` has returned, and `closed` what the wrapper's calls of `close` have
closed, `none` where nothing was open. -/
structure SocketState where
  args : InitArgs
  wrapper : TcpSocketWrapper := {}
  owner : OwnerPc := .resolve
  thread : ThreadPc := .notStarted
  descriptors : Int → Option OpenFile := fun _ => none
  accepted : Nat := 0
  opened : Option Int := none
  closed : List (Option OpenFile) := []
  history : List Event := []

namespace SocketState

def openFd (s : SocketState) (fd : Int) (f : OpenFile) : SocketState :=
  { s with descriptors := Function.update s.descriptors fd (some f) }

/-- A call of `close` by the wrapper. -/
def closeFd (s : SocketState) (fd : Int) : SocketState :=
  { s with
    descriptors := Function.update s.descriptors fd none
    closed := s.closed ++ [s.descriptors fd] }

/-- The kernel can return this number for a new file. -/
def Fresh (s : SocketState) (fd : Int) : Prop := 0 ≤ fd ∧ s.descriptors fd = none

instance (s : SocketState) (fd : Int) : Decidable (s.Fresh fd) := instDecidableAnd

/-- `if (sock_wrap->socket)`, `close` and `sock_wrap->socket = 0`. -/
def closeSocket (s : SocketState) : SocketState :=
  if s.wrapper.socket = 0 then s
  else { s.closeFd s.wrapper.socket with wrapper := { s.wrapper with socket := 0 } }

/-- The next step of `tcp_socket_wrapper_init` or `tcp_socket_wrapper_dealloc`.
`result` is what the call in it returns. -/
def ownerStep (net : Inet) (s : SocketState) (result : Int) : Option SocketState :=
  match s.owner with
  | .resolve =>
      match requestedAddress net s.args.address s.args.port with
      | some addr => some { s with owner := .info addr }
      | none => some { s with owner := .cleanup }
  | .info addr =>
      match getSockaddrInfoStr net addr with
      | some (address, port) =>
          some { s with
            wrapper := { s.wrapper with address := address, port := port }
            owner := .callback addr }
      | none => some { s with owner := .cleanup }
  | .callback addr =>
      if s.args.callback then
        some { s with wrapper := { s.wrapper with callback := true }, owner := .socket addr }
      else some { s with owner := .cleanup }
  | .socket addr =>
      if result = -1 then
        some { s with wrapper := { s.wrapper with socket := -1 }, owner := .cleanup }
      else if s.Fresh result then
        some { s.openFd result .listening with
          wrapper := { s.wrapper with socket := result }
          opened := some result
          owner := .setsockopt addr }
      else none
  | .setsockopt addr => some { s with owner := if result = 0 then .bind addr else .cleanup }
  | .bind _ => some { s with owner := if result < 0 then .cleanup else .listen }
  | .listen => some { s with owner := if result < 0 then .cleanup else .setRunning }
  | .setRunning =>
      some { s with wrapper := { s.wrapper with running := true }, owner := .createThread }
  | .createThread =>
      if result = 0 then some { s with thread := .testing, owner := .setThreadIsInit }
      else some { s with owner := .cleanup }
  | .setThreadIsInit =>
      some { s with wrapper := { s.wrapper with threadIsInit := true }, owner := .started }
  | .cleanup => some { s.closeSocket with owner := .initFailed }
  | .started =>
      some { s with wrapper := { s.wrapper with running := false }, owner := .join }
  | .join =>
      if s.wrapper.threadIsInit = true → s.thread = .exited then some { s with owner := .close }
      else none
  | .close => some { s.closeSocket with owner := .deallocated }
  | .initFailed | .deallocated => none

/-- The steps of `tcp_socket_wrapper_thread` that call nothing from outside. -/
def threadStep (net : Inet) (s : SocketState) : Option SocketState :=
  match s.thread with
  | .testing =>
      some { s with thread := if s.wrapper.running then .selecting else .exited }
  | .address n fd addr =>
      match getSockaddrInfoStr net addr with
      | some (address, port) =>
          some { s with
            thread := .calling
            history := s.history ++ [.handed n address port fd] }
      | none => some { s with thread := .drop n fd }
  | .drop n fd =>
      some { s.closeFd fd with
        thread := .testing
        history := s.history ++ [.dropped n] }
  | _ => none

end SocketState

inductive Action
  | owner (result : Int)
  | thread
  | select (result : Int)
  | accept (result : Int) (peer : Sockaddr)
  | callbackReturn
  | closeConnection (fd : Int)   -- the program closes a connection it was handed
  | openOther (fd : Int)         -- it opens a file of its own
  | closeOther (fd : Int)
deriving DecidableEq, Repr

/-- The `n`th connection was handed to the callback. -/
def WasHanded (h : List Event) (n : Nat) : Prop :=
  ∃ address port socket, .handed n address port socket ∈ h

def Event.hands (n : Nat) : Event → Bool
  | .handed m _ _ _ => m = n
  | .dropped _ => false

theorem wasHanded_iff {h : List Event} {n : Nat} :
    WasHanded h n ↔ ∃ e ∈ h, e.hands n = true := by
  constructor
  · rintro ⟨address, port, socket, hmem⟩
    exact ⟨_, hmem, by simp [Event.hands]⟩
  · rintro ⟨e, hmem, he⟩
    cases e with
    | handed m address port socket =>
        obtain rfl : m = n := by simpa [Event.hands] using he
        exact ⟨address, port, socket, hmem⟩
    | dropped m => cases he

instance (h : List Event) (n : Nat) : Decidable (WasHanded h n) :=
  decidable_of_iff _ wasHanded_iff.symm

def step (net : Inet) (s : SocketState) : Action → Option SocketState
  | .owner result => s.ownerStep net result
  | .thread => s.threadStep net
  | .select result =>
      if s.thread = .selecting then
        some { s with thread := if result ≤ 0 then .testing else .accepting }
      else none
  | .accept result peer =>
      if s.thread = .accepting then
        if result = -1 then some { s with thread := .testing }
        else if s.Fresh result then
          some { s.openFd result (.connection s.accepted) with
            thread := .address s.accepted result peer
            accepted := s.accepted + 1 }
        else none
      else none
  | .callbackReturn => if s.thread = .calling then some { s with thread := .testing } else none
  | .closeConnection fd =>
      match s.descriptors fd with
      | some (.connection n) =>
          if WasHanded s.history n then
            some { s with descriptors := Function.update s.descriptors fd none }
          else none
      | _ => none
  | .openOther fd => if s.Fresh fd then some (s.openFd fd .other) else none
  | .closeOther fd =>
      if s.descriptors fd = some .other then
        some { s with descriptors := Function.update s.descriptors fd none }
      else none

/-- A process with files of its own calls `tcp_socket_wrapper_init`. -/
def Initial (s : SocketState) : Prop :=
  ∃ args descriptors, (∀ fd f, descriptors fd = some f → 0 ≤ fd ∧ f = .other)
    ∧ s = { args := args, descriptors := descriptors }

end CWebServer.SocketWrapper
