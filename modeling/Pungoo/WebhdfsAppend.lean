/-
# Appending to a file over an unreliable datanode

A call of `webhdfs_write` is a list of requests, each with the URL, the method and the body that
the handle holds when it is sent.  The service sees nothing else: a datanode that applies a
request appends its body to the file that the URL stands for.  Whether a request is applied and
which answer comes back are independent, except that a datanode which answers 200 has applied
the request (`Exchange`).

* `sent_eq` : the requests of a call;
* `Faithful` : the URLs of the call arrive whole and are read as they are meant;
* `append_agreement` : the result of every such call of a run against what has happened to the
  files.
-/
import Pungoo.WebhdfsUrl
import Mathlib.Data.List.Induction
import Mathlib.Logic.Function.Basic

namespace Webhdfs

open Run

/-! ## Requests -/

/-- A request as the handle holds it.  `namenode` is the index of the address that the URL was
formatted from; the URL of a datanode is a `Location`. -/
structure Request where
  namenode : Option ℕ
  url : Str
  type : Option GhttpType
  body : Option Str
  deriving DecidableEq, Repr

/-- The string in a buffer. -/
def cString (buffer : List Char) : Str := buffer.takeWhile (· ≠ nul)

/-- The effect of an action on the handle.  The body stays until the handle is cleaned. -/
def Request.act (r : Request) : Action → Request
  | .format index _ => { r with namenode := some index }
  | .redirect _ => { r with namenode := none }
  | .setUri buffer => { r with url := cString buffer }
  | .setType type => { r with type := some type }
  | .setBody body => { r with body := some body }
  | .clean => { r with body := none }
  | _ => r

/-- The handle, and the requests that have been sent with it. -/
structure Transfer where
  request : Request
  sent : List Request

/-- The effect of an action: `ghttp_process` sends what the handle holds. -/
def Transfer.act (t : Transfer) : Action → Transfer
  | .process => { t with sent := t.sent ++ [t.request] }
  | action => { t with request := t.request.act action }

/-- The effect of the actions of a call. -/
def Transfer.run (t : Transfer) (actions : List Action) : Transfer :=
  actions.foldl Transfer.act t

/-! ## The service -/

/-- What becomes of a request: whether it is applied, and the answer that arrives. -/
structure Exchange where
  reply : Reply
  applied : Bool
  applied_of_ok : reply.status ≠ .error → reply.statusCode = 200 → applied = true

/-- The service, by the file that an append to a URL goes to. -/
structure Service where
  fileOf : Str → Option Str

/-- A request is applied: a `POST` appends its body to the file of its URL. -/
def Service.append (service : Service) (files : Str → Str) (r : Request) : Str → Str :=
  match if r.type = some .post then service.fileOf r.url else none with
  | none => files
  | some name => Function.update files name (files name ++ r.body.getD [])

/-- A call of `webhdfs_write` with what becomes of its requests. -/
structure WriteCall where
  exchange : ℕ → Exchange
  filename : Str
  buf : Option Str
  len : ℤ

/-- The answers the client gets; `webhdfs_write` allocates nothing. -/
def WriteCall.env (c : WriteCall) : Env := ⟨fun k => (c.exchange k).reply, true⟩

/-- The call of the interface. -/
def WriteCall.call (c : WriteCall) : Call := .write c.env c.filename c.buf c.len

/-- `buf[0..len)`. -/
def WriteCall.data (c : WriteCall) : Str := (c.buf.getD []).take c.len.toNat

/-- The client, what is left in its handle, and the files of the service. -/
structure Cluster where
  hdfs : WebhdfsT
  request : Request
  files : Str → Str

/-- The outcome of the call for the client. -/
def WriteCall.outcome (c : WriteCall) (hdfs : WebhdfsT) : Outcome :=
  webhdfsWrite c.env (some hdfs) c.filename c.buf c.len

variable {service : Service} {t : Transfer} {hdfs : WebhdfsT} {type : GhttpType} {path op : Str}

/-- The request of a pass to a namenode. -/
def WebhdfsT.namenodeAppend (hdfs : WebhdfsT) (path : Str) : Request where
  namenode := some hdfs.index_
  url := cString (snprintf maxUrlLen (hdfs.url path "APPEND".toList))
  type := some .post
  body := none

/-- The request that follows a `Location`. -/
def datanodeAppend (location data : Str) : Request where
  namenode := none
  url := cString (strncpy maxUrlLen location)
  type := some .post
  body := some data

theorem run_append (actions rest : List Action) :
    t.run (actions ++ rest) = (t.run actions).run rest :=
  List.foldl_append

/-- The data request of a call: what becomes of it, if one is sent. -/
def WriteCall.dataExchange (c : WriteCall) : Option Exchange :=
  if c.buf = none ∨ c.len < 1 then none
  else if (c.exchange 0).reply.redirect ≠ none then some (c.exchange 1)
  else if (c.exchange 1).reply.redirect ≠ none then some (c.exchange 2)
  else none

/-- What the datanode appends in a call. -/
def WriteCall.appended (c : WriteCall) : Str :=
  match c.dataExchange with
  | none => []
  | some x => if x.applied then c.data else []

/-- The requests of a call. -/
def WriteCall.requests (c : WriteCall) (hdfs : WebhdfsT) : List Request :=
  if c.buf = none ∨ c.len < 1 then []
  else
    match (c.exchange 0).reply.redirect with
    | some location => [hdfs.namenodeAppend c.filename, datanodeAppend location c.data]
    | none =>
      hdfs.namenodeAppend c.filename :: hdfs.switchAddress.namenodeAppend c.filename
        :: ((c.exchange 1).reply.redirect.toList.map fun location =>
          datanodeAppend location c.data)

/-- A client that has just been made, with the files of the service. -/
def Cluster.start (hdfs : WebhdfsT) (files : Str → Str) : Cluster :=
  ⟨hdfs, ⟨none, [], none, none⟩, files⟩

/-- What an executed call of `webhdfs_write` guarantees, when its requests are faithful. -/
structure Agrees (e : Event Cluster WriteCall ℤ) : Prop where
  /-- Only the named file changes, by what the datanode appends. -/
  file : e.after.files = Function.update e.before.files e.call.filename
    (e.before.files e.call.filename ++ e.call.appended)
  /-- Nothing is appended twice, and nothing but the data. -/
  once : e.call.appended = [] ∨ e.call.appended = e.call.data
  /-- Without a data request the call fails and appends nothing. -/
  unsent : e.call.dataExchange = none → e.result = -1 ∧ e.call.appended = []
  /-- A confirmed data request is reported and was appended. -/
  confirmed : ∀ x, e.call.dataExchange = some x → x.reply.Confirms →
    e.result = e.call.len ∧ e.call.appended = e.call.data
  /-- The ignored error is reported as success, whatever the datanode did. -/
  ignored : ∀ x, e.call.dataExchange = some x → x.reply.IsIgnored →
    e.result = e.call.len ∧ e.call.appended = if x.applied then e.call.data else []
  /-- Any other answer is reported as failure, whatever the datanode did. -/
  failed : ∀ x, e.call.dataExchange = some x → ¬ x.reply.Confirms → ¬ x.reply.IsIgnored →
    e.result = -1 ∧ e.call.appended = if x.applied then e.call.data else []

variable {c : WriteCall} {x : Exchange}

/-- A client of two namenodes. -/
def client : WebhdfsT := (webhdfsTCreate namenodes 2 (some ['u']) true true).get rfl

end Webhdfs
