/-
# The HTTP client of `c/hdfs_test/webhdfs.c`

A `webhdfs_t` knows two namenode addresses and the index of the one in use.  Every
operation tries the addresses in a loop of `MAX_ADDRESS_NUM` passes: it formats a URL from
`address_[index_]`, sends a request, and switches to the other address when the answer is
not the wanted one.  `create_file` and `write` follow the `Location` of the answer with a
second request to a datanode.

The HTTP library and `json-c` are not part of the repository.  Their answers are
arguments: `Env` holds the answers to the requests of one call and the outcome of
`malloc`, `JsonC` is the interface of `json-c`.  What the client does with them is the
list of its `Action`s, in their order.
-/
import Pungoo.Run
import Mathlib.Data.Int.Notation
import Mathlib.Data.Nat.Digits.Defs

namespace Webhdfs

/-- The text of a C string: the characters before its terminator. -/
abbrev Str := List Char

/-- The terminator. -/
def nul : Char := Char.ofNat 0

/-- `MAX_URL_LEN`. -/
def maxUrlLen : ℕ := 512

/-- `MAX_ADDRESS_NUM`. -/
def maxAddressNum : ℕ := 2

/-- `MAX_USER_NAME_LEN`. -/
def maxUserNameLen : ℕ := 32

/-- `EAGAIN`. -/
def eagain : ℤ := 11

/-! ## The libraries -/

/-- `ghttp_type`, as far as it is used. -/
inductive GhttpType
  | put | post | delete
  deriving DecidableEq, Repr

/-- `ghttp_status`. -/
inductive GhttpStatus
  | error | notDone | done
  deriving DecidableEq, Repr

/-- What can be asked after a `ghttp_process`: its result, `ghttp_status_code`, the header
`Location`, the body, and for an error `errno` and `ghttp_get_error`. -/
structure Reply where
  status : GhttpStatus
  statusCode : ℤ
  location : Option Str
  body : Str
  errno : ℤ
  errorText : Str

/-- The outcomes of one call: the answer to its `k`-th request, and whether `malloc`
succeeds. -/
structure Env where
  reply : ℕ → Reply
  malloc : Bool

/-- `json_tokener_parse`, `json_object_object_get_ex` and `json_object_get_string`. -/
structure JsonC (J : Type*) where
  tokenerParse : Str → Option J
  objectGetEx : J → Str → Option J
  getString : J → Str

/-- What the client does, apart from changing its own state. -/
inductive Action
  /-- `snprintf` of the URL of a request to `address_[index]`. -/
  | format (index : ℕ) (url : Str)
  /-- `strncpy` of the `Location`. -/
  | redirect (location : Str)
  /-- `ghttp_set_uri` with the whole buffer `url`. -/
  | setUri (buffer : List Char)
  | setType (type : GhttpType)
  /-- `ghttp_set_header` of `http_hdr_Timeout`. -/
  | setTimeout (value : Str)
  | setBody (body : Str)
  | prepare
  | process
  | clean
  | malloc (success : Bool)
  | free
  | jsonParse (success : Bool)
  | jsonPut
  deriving DecidableEq, Repr

/-! ## The buffer `url` -/

/-- The buffer after `char url[size] = {0}; snprintf(url, size, ...)` of a text. -/
def snprintf (size : ℕ) (text : Str) : List Char :=
  text.take (size - 1) ++ List.replicate (size - (text.take (size - 1)).length) nul

/-- The buffer after `strncpy(url, text, size)`. -/
def strncpy (size : ℕ) (text : Str) : List Char :=
  text.take size ++ List.replicate (size - (text.take size).length) nul

/-- `%d`. -/
def decimal (n : ℤ) : Str :=
  if n < 0 then '-' :: Nat.toDigits 10 n.natAbs else Nat.toDigits 10 n.natAbs

/-! ## The object -/

/-- `hdfs_address_t`; `ip` is the text in the array. -/
structure HdfsAddress where
  ip : Str
  port : ℤ
  deriving DecidableEq, Repr

/-- `webhdfs_t`, without the handle, whose use is the list of actions, and without the
function pointers, which always hold the functions below. -/
structure WebhdfsT where
  address_ : Fin maxAddressNum → HdfsAddress
  index_ : ℕ
  index_lt : index_ < maxAddressNum
  user_ : Str

/-- `webhdfs_t_create(addr, num, user)`; `malloc` and `requestNew` are the outcomes of
`malloc` and `ghttp_request_new`. -/
def webhdfsTCreate (addr : ℕ → HdfsAddress) (num : ℤ) (user : Option Str)
    (malloc requestNew : Bool) : Option WebhdfsT :=
  if num > maxAddressNum ∨ num ≤ 0 then none
  else
    match user with
    | none => none
    | some user =>
      if user.length < 1 ∨ maxUserNameLen ≤ user.length then none
      else if malloc = false then none
      else if requestNew = false then none
      else
        some
          -- the object is zeroed before `num` addresses are copied
          { address_ := fun i => if (i : ℤ) < num then addr i else ⟨[], 0⟩
            index_ := 0
            index_lt := by decide
            user_ := user.take (maxUserNameLen - 1) }

/-- `hdfs->index_ = (hdfs->index_ + 1) % MAX_ADDRESS_NUM`. -/
def WebhdfsT.switchAddress (hdfs : WebhdfsT) : WebhdfsT :=
  { hdfs with
    index_ := (hdfs.index_ + 1) % maxAddressNum
    index_lt := Nat.mod_lt _ (by decide) }

/-- `hdfs->address_[hdfs->index_]`. -/
def WebhdfsT.address (hdfs : WebhdfsT) : HdfsAddress :=
  hdfs.address_ ⟨hdfs.index_, hdfs.index_lt⟩

/-- The formatted URL of a namenode request; `op` is the text behind `op=`. -/
def WebhdfsT.url (hdfs : WebhdfsT) (path op : Str) : Str :=
  "http://".toList ++ hdfs.address.ip ++ ":".toList ++ decimal hdfs.address.port
    ++ "/webhdfs/v1".toList ++ path ++ "?user.name=".toList ++ hdfs.user_ ++ "&op=".toList ++ op

/-! ## Requests -/

/-- The calls that send a request: URL, type, timeout, body if there is one. -/
def request (buffer : List Char) (type : GhttpType) (body : Option Str) : List Action :=
  [.setUri buffer, .setType type, .setTimeout "10".toList]
    ++ body.toList.map .setBody ++ [.prepare, .process]

/-- The namenode request of one pass. -/
def WebhdfsT.namenodeRequest (hdfs : WebhdfsT) (type : GhttpType) (path op : Str) :
    List Action :=
  .format hdfs.index_ (hdfs.url path op)
    :: request (snprintf maxUrlLen (hdfs.url path op)) type none

/-- The rest of a pass that found a `Location`, up to the answer of the datanode. -/
def redirectedRequest (location : Str) (type : GhttpType) (body : Option Str) : List Action :=
  .redirect location :: .clean :: request (strncpy maxUrlLen location) type body

/-- The result of an operation: its return value, the object behind the pointer and the
actions. -/
structure Outcome where
  ret : ℤ
  hdfs : Option WebhdfsT
  actions : List Action

/-- The arguments are refused before anything is sent. -/
def Outcome.refused (hdfs : Option WebhdfsT) : Outcome := ⟨-1, hdfs, []⟩

/-- One pass: the namenode request, and what `next` makes of the answer to it, which is the
`k`-th answer of the call.  `none` is the `continue` of the source, which always switches the
address and cleans the handle; `some` is a `break` with the value of `ret`. -/
def pass (type : GhttpType) (path op : Str) (next : ℕ → Option (ℤ × List Action))
    (hdfs : WebhdfsT) (k : ℕ) : Option ℤ × List Action :=
  match next k with
  | none => (none, hdfs.namenodeRequest type path op ++ [.clean])
  | some (ret, rest) => (some ret, hdfs.namenodeRequest type path op ++ rest)

/-- The loop over the addresses with `left` passes to go. -/
def tryAddresses (body : WebhdfsT → ℕ → Option ℤ × List Action) :
    ℕ → WebhdfsT → ℕ → Outcome
  | 0, hdfs, _ => ⟨-1, some hdfs, []⟩
  | left + 1, hdfs, k =>
    match body hdfs k with
    | (some ret, actions) => ⟨ret, some hdfs, actions⟩
    | (none, actions) =>
      let rest := tryAddresses body left hdfs.switchAddress (k + 1)
      { rest with actions := actions ++ rest.actions }

/-! ## The operations with a redirect -/

/-- The `Location` of a namenode's answer, where the source follows it. -/
def Reply.redirect (reply : Reply) : Option Str :=
  if reply.status = .error then none
  else if reply.statusCode ≠ 307 then none
  else reply.location

/-- The datanode stage of `webhdfs_create_file` for status 403: the body is copied, parsed
and searched for the exception. -/
def alreadyExists {J : Type*} (json : JsonC J) (malloc : Bool) (reply : Reply) :
    ℤ × List Action :=
  if malloc = false then (-1, [.malloc false, .clean])
  else
    match json.tokenerParse (reply.body.takeWhile (· ≠ nul)) with
    | none => (-1, [.malloc true, .jsonParse false, .free, .clean])
    | some respObj =>
      match json.objectGetEx respObj "RemoteException".toList with
      | none => (-1, [.malloc true, .jsonParse true, .jsonPut, .free, .clean])
      | some objField =>
        match json.objectGetEx objField "exception".toList with
        | none => (-1, [.malloc true, .jsonParse true, .jsonPut, .free, .clean])
        | some subObjField =>
          if json.getString subObjField = "FileAlreadyExistsException".toList then
            -- the file exists, which counts as created; nothing is released here
            (0, [.malloc true, .jsonParse true, .clean])
          else
            (-1, [.malloc true, .jsonParse true, .jsonPut, .free, .clean])

/-- The datanode stage of `webhdfs_create_file`. -/
def createFileDatanode {J : Type*} (json : JsonC J) (malloc : Bool) (reply : Reply) :
    ℤ × List Action :=
  if reply.status = .error then (-1, [.clean])
  else if reply.statusCode ≠ 201 then
    if reply.statusCode = 403 then alreadyExists json malloc reply
    else (-1, [.clean])
  else (0, [.clean])

/-- The datanode stage of `webhdfs_write`. -/
def writeDatanode (len : ℤ) (reply : Reply) : ℤ × List Action :=
  if reply.status = .error then
    -- this kind of error is ignored
    if reply.errno = eagain ∧ reply.errorText = "Unknown Error.".toList then (len, [.clean])
    else (-1, [.clean])
  else if reply.statusCode ≠ 200 then (-1, [.clean])
  else (len, [.clean])

/-- What follows the namenode's answer in an operation with a redirect. -/
def followRedirect (env : Env) (type : GhttpType) (body : Option Str)
    (datanode : Reply → ℤ × List Action) (k : ℕ) : Option (ℤ × List Action) :=
  match (env.reply k).redirect with
  | none => none
  | some location =>
    -- whatever the datanode answers, the loop ends
    let (ret, rest) := datanode (env.reply (k + 1))
    some (ret, redirectedRequest location type body ++ rest)

/-- `webhdfs_create_file(hdfs, filename)`. -/
def webhdfsCreateFile {J : Type*} (json : JsonC J) (env : Env) (hdfs : Option WebhdfsT)
    (filename : Option Str) : Outcome :=
  match hdfs, filename with
  | none, _ => .refused none
  | some hdfs, none => .refused (some hdfs)
  | some hdfs, some filename =>
    if filename.length < 1 then .refused (some hdfs)
    else
      tryAddresses
        (pass .put filename "CREATE".toList
          (followRedirect env .put none (createFileDatanode json env.malloc)))
        maxAddressNum hdfs 0

/-- `webhdfs_write(hdfs, filename, buf, len)`; the source expects a `filename`. -/
def webhdfsWrite (env : Env) (hdfs : Option WebhdfsT) (filename : Str) (buf : Option Str)
    (len : ℤ) : Outcome :=
  match hdfs, buf with
  | none, _ => .refused none
  | some hdfs, none => .refused (some hdfs)
  | some hdfs, some buf =>
    if len < 1 then .refused (some hdfs)
    else
      tryAddresses
        (pass .post filename "APPEND".toList
          (followRedirect env .post (some (buf.take len.toNat)) (writeDatanode len)))
        maxAddressNum hdfs 0

/-! ## The operations on directories -/

/-- What follows the namenode's answer in an operation without a redirect. -/
def answered (env : Env) (k : ℕ) : Option (ℤ × List Action) :=
  if (env.reply k).status = .error then none
  else if (env.reply k).statusCode ≠ 200 then none
  else some (0, [.clean])

/-- The operations on directories differ in the method and the text of the query. -/
def dirOperation (type : GhttpType) (op : Str) (env : Env) (hdfs : Option WebhdfsT)
    (dir : Option Str) : Outcome :=
  match hdfs, dir with
  | none, _ => .refused none
  | some hdfs, none => .refused (some hdfs)
  | some hdfs, some dir =>
    if dir.length < 1 then .refused (some hdfs)
    else tryAddresses (pass type dir op (answered env)) maxAddressNum hdfs 0

/-- `webhdfs_create_dir(hdfs, dir)`. -/
def webhdfsCreateDir : Env → Option WebhdfsT → Option Str → Outcome :=
  dirOperation .put "MKDIRS".toList

/-- `webhdfs_delete_dir(hdfs, dir)`. -/
def webhdfsDeleteDir : Env → Option WebhdfsT → Option Str → Outcome :=
  dirOperation .delete "DELETE&recursive=true".toList

/-- `webhdfs_delete_file(hdfs, filename)`. -/
def webhdfsDeleteFile : Env → Option WebhdfsT → Option Str → Outcome := webhdfsDeleteDir

/-! ## Sequences of calls -/

/-- A call of the interface on an object, with the outcomes it meets. -/
inductive Call
  | createFile (env : Env) (filename : Option Str)
  | deleteFile (env : Env) (filename : Option Str)
  | write (env : Env) (filename : Str) (buf : Option Str) (len : ℤ)
  | createDir (env : Env) (dir : Option Str)
  | deleteDir (env : Env) (dir : Option Str)

/-- The outcomes the call meets. -/
def Call.env : Call → Env
  | .createFile env _ | .deleteFile env _ | .write env _ _ _ | .createDir env _
  | .deleteDir env _ => env

/-- The method of the requests. -/
def Call.type : Call → GhttpType
  | .createFile _ _ | .createDir _ _ => .put
  | .write _ _ _ _ => .post
  | .deleteFile _ _ | .deleteDir _ _ => .delete

/-- The path in the URL of the namenode requests. -/
def Call.path : Call → Str
  | .write _ filename _ _ => filename
  | .createFile _ path | .deleteFile _ path | .createDir _ path | .deleteDir _ path =>
    path.getD []

/-- The text behind `op=`. -/
def Call.op : Call → Str
  | .createFile _ _ => "CREATE".toList
  | .write _ _ _ _ => "APPEND".toList
  | .createDir _ _ => "MKDIRS".toList
  | .deleteFile _ _ | .deleteDir _ _ => "DELETE&recursive=true".toList

/-- One call on the object `hdfs`. -/
def run {J : Type*} (json : JsonC J) (hdfs : WebhdfsT) : Call → Outcome
  | .createFile env filename => webhdfsCreateFile json env (some hdfs) filename
  | .deleteFile env filename => webhdfsDeleteFile env (some hdfs) filename
  | .write env filename buf len => webhdfsWrite env (some hdfs) filename buf len
  | .createDir env dir => webhdfsCreateDir env (some hdfs) dir
  | .deleteDir env dir => webhdfsDeleteDir env (some hdfs) dir

/-- One call as a step: the outcome and the object after it. -/
def step {J : Type*} (json : JsonC J) (hdfs : WebhdfsT) (call : Call) : Outcome × WebhdfsT :=
  (run json hdfs call, (run json hdfs call).hdfs.getD hdfs)

end Webhdfs
