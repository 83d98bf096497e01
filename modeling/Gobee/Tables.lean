/-
# Name tables

The tables of `helpers.go` and `types.go` that the emitter looks names up in, and the
C spelling of a Go type (`goTypeToC`).  A Go map is an association list with the rows
in source order; the keys of each are distinct, so the order does not matter.
-/
import Gobee.GoSyntax

namespace Gobee

/-! ## Failures -/

/-- How a function of the transpiler fails: with a Go error, or by a run-time panic. -/
inductive Failure where
  | error (msg : Text)
  | panic
  deriving DecidableEq, Repr

/-- A computation of the transpiler. -/
abbrev Result := Except Failure

/-- `fmt.Errorf`. -/
def errorf {α : Type} (msg : Text) : Result α := .error (.error msg)

/-- Replace the text of an error, as wrapping it with `%w` does; a panic is not caught. -/
def wrapError {α : Type} (wrap : Text → Text) : Result α → Result α
  | .error (.error msg) => .error (.error (wrap msg))
  | r => r

theorem wrapError_ok {α : Type} {wrap : Text → Text} {r : Result α} {a : α}
    (h : wrapError wrap r = .ok a) : r = .ok a := by
  cases r with
  | ok b => exact h
  | error e => cases e <;> cases h

theorem bind_ok {α β : Type} {x : Result α} {f : α → Result β} {b : β} (h : x >>= f = .ok b) :
    ∃ a, x = .ok a ∧ f a = .ok b := by
  cases x with
  | error e => cases h
  | ok a => exact ⟨a, rfl, h⟩

/-! ## helpers.go -/

/-- The import path of the `bpf` package. -/
def bpfPkgPath : Text := "github.com/boratanrikulu/gobee/bpf"

/-- Go-to-C name overrides. -/
def bpfHelperFuncs : List (Text × Text) :=
  [("AtomicAdd64", "__sync_fetch_and_add"), ("Ntohl", "bpf_ntohl"), ("Htonl", "bpf_htonl"),
    ("Ntohs", "bpf_ntohs"), ("Htons", "bpf_htons")]

/-- Helpers that need `<bpf/bpf_endian.h>`. -/
def endianHelperNames : List Text :=
  ["Ntohl", "Htonl", "Ntohs", "Htons"]

/-- XDP actions, tracepoint, kprobe and sock-ops results. -/
def actionConstants : List (Text × Text) :=
  [("XdpAborted", "XDP_ABORTED"), ("XdpDrop", "XDP_DROP"), ("XdpPass", "XDP_PASS"),
    ("XdpTx", "XDP_TX"), ("XdpRedirect", "XDP_REDIRECT"), ("TpOk", "0"), ("KpOk", "0"),
    ("SockOpsErr", "0"), ("SockOpsOk", "1")]

/-- Sock-ops op codes. -/
def sockOpsCodes : List (Text × Text) :=
  [("BpfSockOpsVoid", "BPF_SOCK_OPS_VOID"),
    ("BpfSockOpsTimeoutInit", "BPF_SOCK_OPS_TIMEOUT_INIT"),
    ("BpfSockOpsRwndInit", "BPF_SOCK_OPS_RWND_INIT"),
    ("BpfSockOpsTcpConnectCb", "BPF_SOCK_OPS_TCP_CONNECT_CB"),
    ("BpfSockOpsActiveEstablishedCb", "BPF_SOCK_OPS_ACTIVE_ESTABLISHED_CB"),
    ("BpfSockOpsPassiveEstablishedCb", "BPF_SOCK_OPS_PASSIVE_ESTABLISHED_CB"),
    ("BpfSockOpsNeedsEcn", "BPF_SOCK_OPS_NEEDS_ECN"),
    ("BpfSockOpsBaseRtt", "BPF_SOCK_OPS_BASE_RTT"), ("BpfSockOpsRtoCb", "BPF_SOCK_OPS_RTO_CB"),
    ("BpfSockOpsRetransCb", "BPF_SOCK_OPS_RETRANS_CB"),
    ("BpfSockOpsStateCb", "BPF_SOCK_OPS_STATE_CB"),
    ("BpfSockOpsTcpListenCb", "BPF_SOCK_OPS_TCP_LISTEN_CB"),
    ("BpfSockOpsRttCb", "BPF_SOCK_OPS_RTT_CB"),
    ("BpfSockOpsParseHdrOptCb", "BPF_SOCK_OPS_PARSE_HDR_OPT_CB"),
    ("BpfSockOpsHdrOptLenCb", "BPF_SOCK_OPS_HDR_OPT_LEN_CB"),
    ("BpfSockOpsWriteHdrOptCb", "BPF_SOCK_OPS_WRITE_HDR_OPT_CB")]

/-- Sock-ops callback flag bits. -/
def sockOpsFlags : List (Text × Text) :=
  [("BpfSockOpsRtoCbFlag", "BPF_SOCK_OPS_RTO_CB_FLAG"),
    ("BpfSockOpsRetransCbFlag", "BPF_SOCK_OPS_RETRANS_CB_FLAG"),
    ("BpfSockOpsStateCbFlag", "BPF_SOCK_OPS_STATE_CB_FLAG"),
    ("BpfSockOpsRttCbFlag", "BPF_SOCK_OPS_RTT_CB_FLAG"),
    ("BpfSockOpsParseAllHdrOptCbFlag", "BPF_SOCK_OPS_PARSE_ALL_HDR_OPT_CB_FLAG"),
    ("BpfSockOpsParseUnknownHdrOptCbFlag", "BPF_SOCK_OPS_PARSE_UNKNOWN_HDR_OPT_CB_FLAG"),
    ("BpfSockOpsWriteHdrOptCbFlag", "BPF_SOCK_OPS_WRITE_HDR_OPT_CB_FLAG")]

/-- TC actions, cgroup_skb and LSM return values. -/
def returnConstants : List (Text × Text) :=
  [("TcUnspec", "TC_ACT_UNSPEC"), ("TcOk", "TC_ACT_OK"), ("TcReclassify", "TC_ACT_RECLASSIFY"),
    ("TcShot", "TC_ACT_SHOT"), ("TcPipe", "TC_ACT_PIPE"), ("TcStolen", "TC_ACT_STOLEN"),
    ("TcQueued", "TC_ACT_QUEUED"), ("TcRepeat", "TC_ACT_REPEAT"),
    ("TcRedirect", "TC_ACT_REDIRECT"), ("TcTrap", "TC_ACT_TRAP"), ("CgroupSkbDrop", "0"),
    ("CgroupSkbAllow", "1"), ("LsmAllow", "0"), ("LsmDeny", "-1")]

/-- Constants of the `bpf` package with their C text. -/
def bpfConstants : List (Text × Text) :=
  actionConstants ++ sockOpsCodes ++ sockOpsFlags ++ returnConstants

/-- The libbpf constant of a map kind. -/
def mapTypeToC : List (Text × Text) :=
  [("array", "BPF_MAP_TYPE_ARRAY"), ("hash", "BPF_MAP_TYPE_HASH"),
    ("lru_hash", "BPF_MAP_TYPE_LRU_HASH"), ("percpu_array", "BPF_MAP_TYPE_PERCPU_ARRAY"),
    ("percpu_hash", "BPF_MAP_TYPE_PERCPU_HASH"),
    ("lru_percpu_hash", "BPF_MAP_TYPE_LRU_PERCPU_HASH"),
    ("bloom_filter", "BPF_MAP_TYPE_BLOOM_FILTER"), ("lpm_trie", "BPF_MAP_TYPE_LPM_TRIE"),
    ("ringbuf", "BPF_MAP_TYPE_RINGBUF"), ("queue", "BPF_MAP_TYPE_QUEUE"),
    ("stack", "BPF_MAP_TYPE_STACK"), ("prog_array", "BPF_MAP_TYPE_PROG_ARRAY"),
    ("perf_event_array", "BPF_MAP_TYPE_PERF_EVENT_ARRAY"),
    ("task_storage", "BPF_MAP_TYPE_TASK_STORAGE"), ("sk_storage", "BPF_MAP_TYPE_SK_STORAGE"),
    ("inode_storage", "BPF_MAP_TYPE_INODE_STORAGE"), ("devmap", "BPF_MAP_TYPE_DEVMAP"),
    ("cpumap", "BPF_MAP_TYPE_CPUMAP"), ("xskmap", "BPF_MAP_TYPE_XSKMAP")]

/-- The kernel helper behind a map method. -/
def mapMethodToHelper : List (Text × Text) :=
  [("Lookup", "bpf_map_lookup_elem"), ("Update", "bpf_map_update_elem"),
    ("Delete", "bpf_map_delete_elem")]

/-- Map types with the lookup/update/delete methods. -/
def kernelMapGoTypes : List Text :=
  ["ArrayMap", "HashMap", "LruHashMap", "PerCPUArray", "PerCPUHash", "LruPerCPUHash", "LpmTrie"]

/-- The kernel helpers of a storage map: get and delete. -/
def storageMapHelpers : List (Text × (Text × Text)) :=
  [("TaskStorage", "bpf_task_storage_get", "bpf_task_storage_delete"),
    ("SkStorage", "bpf_sk_storage_get", "bpf_sk_storage_delete"),
    ("InodeStorage", "bpf_inode_storage_get", "bpf_inode_storage_delete")]

/-- Map types whose `Redirect` method is `bpf_redirect_map`. -/
def redirectMapTypes : List Text :=
  ["DevMap", "CpuMap", "XskMap"]

/-- The map kind of a Go map type. -/
def bpfMapGoTypeToDirective : List (Text × Text) :=
  [("ArrayMap", "array"), ("HashMap", "hash"), ("LruHashMap", "lru_hash"),
    ("PerCPUArray", "percpu_array"), ("PerCPUHash", "percpu_hash"),
    ("LruPerCPUHash", "lru_percpu_hash"), ("BloomFilter", "bloom_filter"),
    ("LpmTrie", "lpm_trie"), ("RingBuf", "ringbuf"), ("Queue", "queue"), ("Stack", "stack"),
    ("ProgArray", "prog_array"), ("PerfEventArray", "perf_event_array"),
    ("TaskStorage", "task_storage"), ("SkStorage", "sk_storage"),
    ("InodeStorage", "inode_storage"), ("DevMap", "devmap"), ("CpuMap", "cpumap"),
    ("XskMap", "xskmap")]

/-- Lines of the static C helper behind `bpf.GetUserArgv`. -/
def getUserArgvPrelude : List Text :=
  ["/* Reads up to 8 args, each truncated to 32 bytes, packed into fixed",
    " * slots. Constant offsets and sizes are required by the BPF verifier;",
    " * variable-stride writes get rejected. buf_size is fixed at 256. */",
    "static __always_inline void gobee_read_user_argv(char *buf, int buf_size, const char *const *argv) \x7b",
    "\t__builtin_memset(buf, 0, 256);",
    "\t#pragma unroll",
    "\tfor (int i = 0; i < 8; i++) \x7b",
    "\t\tconst char *p;",
    "\t\tif (bpf_probe_read_user(&p, sizeof(p), &argv[i]) || !p) break;",
    "\t\tbpf_probe_read_user_str(buf + i * 32, 32, p);",
    "\t\x7d",
    "\t(void)buf_size;",
    "\x7d"]

/-- Static C helpers emitted at the top of the file, by the Go function that needs them. -/
def bpfPreludeHelpers : List (Text × Text) :=
  [("GetUserArgv", getUserArgvPrelude.flatMap (· ++ ['\n']))]

/-- An ASCII capital letter. -/
def isUpperAscii (c : Char) : Bool := 'A' ≤ c && c ≤ 'Z'

/-- The small letters of ASCII by their codes. -/
theorem lower_iff (c : Char) : ('a' ≤ c ∧ c ≤ 'z') ↔ 97 ≤ c.toNat ∧ c.toNat ≤ 122 := by
  rw [Char.le_def, Char.le_def, UInt32.le_iff_toNat_le, UInt32.le_iff_toNat_le]
  exact Iff.rfl

/-- What `goNameToBpfHelper` and `goCamelToSnake` do after the first letter: a capital is
lowered and gets an underscore in front. -/
def snakeTail : Text → Text
  | [] => []
  | c :: cs => if isUpperAscii c then '_' :: c.toLower :: snakeTail cs else c :: snakeTail cs

/-- `goCamelToSnake`, on names in ASCII (the source narrows every rune to a byte). -/
def goCamelToSnake : Text → Text
  | [] => []
  | c :: cs => (if isUpperAscii c then c.toLower else c) :: snakeTail cs

/-- `goNameToBpfHelper`. -/
def goNameToBpfHelper (goName : Text) : Text := "bpf_" ++ goCamelToSnake goName

/-! ## types.go -/

/-- How a type of the `bpf` package maps to C. -/
structure BpfTypeInfo where
  cType : Text
  needsVmlinux : Bool
  fieldsCORE : Bool

/-- The types of the `bpf` package. -/
def bpfPackageTypes : List (Text × BpfTypeInfo) :=
  [("XdpMd", ⟨"struct xdp_md", false, false⟩),
    ("XdpAction", ⟨"int", false, false⟩),
    ("TracepointCtx", ⟨"void", false, false⟩),
    ("TpReturn", ⟨"int", false, false⟩),
    ("SyscallEnterCtx", ⟨"struct trace_event_raw_sys_enter", true, false⟩),
    ("SyscallExitCtx", ⟨"struct trace_event_raw_sys_exit", true, false⟩),
    ("ExecveEnterCtx", ⟨"struct trace_event_raw_sys_enter", true, false⟩),
    ("OpenatEnterCtx", ⟨"struct trace_event_raw_sys_enter", true, false⟩),
    ("PtRegs", ⟨"struct pt_regs", false, false⟩),
    ("KpReturn", ⟨"int", false, false⟩),
    ("SockOpsMd", ⟨"struct bpf_sock_ops", false, false⟩),
    ("SockOpsReturn", ⟨"int", false, false⟩),
    ("SkBuff", ⟨"struct __sk_buff", false, false⟩),
    ("TcAction", ⟨"int", false, false⟩),
    ("CgroupSkbReturn", ⟨"int", false, false⟩),
    ("LsmCtx", ⟨"void", false, false⟩),
    ("LsmReturn", ⟨"int", false, false⟩)]

/-- The row of a named type, if it is declared in the `bpf` package. -/
def bpfPackageTypeInfo (n : TypeName) : Option BpfTypeInfo :=
  if n.pkg = some bpfPkgPath then bpfPackageTypes.lookup n.name else none

/-- `basicToC`. -/
def basicToC : Basic → Result Text
  | .bool => .ok "bool"
  | .int8 => .ok "__s8"
  | .int16 => .ok "__s16"
  | .int32 | .rune | .untypedInt => .ok "__s32"
  | .int64 => .ok "__s64"
  | .uint8 | .byte => .ok "__u8"
  | .uint16 => .ok "__u16"
  | .uint32 => .ok "__u32"
  | .uint64 => .ok "__u64"
  | .unsafePointer => .ok "void *"
  | b => errorf ("unsupported basic type: " ++ b.name)

/-- `namedToC`. -/
def namedToC (n : TypeName) : Text :=
  match bpfPackageTypeInfo n with
  | some info => info.cType
  | none => "struct " ++ n.name

/-- `goTypeToC`. -/
def goTypeToC : GoType → Result Text
  | .basic b => basicToC b
  | .pointer elem => do
      let base ← goTypeToC elem
      return base ++ " *"
  | .named n _ => .ok (namedToC n)
  | t => errorf ("unsupported type: " ++ t.string)

/-- `goTypeToC` on a type that may be `nil`; printing a `nil` type panics. -/
def goTypeToC? : Option GoType → Result Text
  | none => .error .panic
  | some t => goTypeToC t

end Gobee
