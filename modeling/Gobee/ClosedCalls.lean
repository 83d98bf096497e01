/-
# Emitted calls are closed

The callee of every call in an emitted body should be a helper of the `bpf` package or a
function of the file, and a method of a map should become a helper call on the address of
the map.  `formatCall` prints every call it does not recognise as it stands, so this holds
exactly when every printed call has one of the shapes below.

* `calls_closed_iff` : **the callees are closed and the map methods are lowered, exactly
  when no printed call is a conversion to a named type, a builtin, a dot-imported helper,
  a method of a bloom filter, or a map method on anything but a map variable, and no map
  method is called in a part of the body that is left out.**
-/
import Gobee.Functions
import Gobee.LeftOut
import Gobee.Validate

namespace Gobee

open CSyntax

/-! ## The names of helpers -/

/-- The generated functions of the `bpf` package. -/
def generatedFuncs : List Text :=
  ["Bind", "BprmOptsSet", "CgrpStorageDelete", "CgrpStorageGet", "CheckMtu", "CloneRedirect",
    "CopyFromUser", "CopyFromUserTask", "CsumDiff", "CsumLevel", "CsumUpdate",
    "CurrentTaskUnderCgroup", "DynptrData", "DynptrFromMem", "DynptrRead", "DynptrWrite",
    "FibLookup", "FindVma", "ForEachMapElem", "GetAttachCookie", "GetBranchSnapshot",
    "GetCgroupClassid", "GetCurrentAncestorCgroupId", "GetCurrentCgroupId", "GetCurrentComm",
    "GetCurrentPidTgid", "GetCurrentTask", "GetCurrentTaskBtf", "GetCurrentUidGid", "GetFuncArg",
    "GetFuncArgCnt", "GetFuncIp", "GetFuncRet", "GetHashRecalc", "GetListenerSock",
    "GetLocalStorage", "GetNetnsCookie", "GetNsCurrentPidTgid", "GetNumaNodeId", "GetPrandomU32",
    "GetRetval", "GetRouteRealm", "GetSmpProcessorId", "GetSocketCookie", "GetSocketUid",
    "GetStack", "GetStackid", "GetTaskStack", "Getsockopt", "ImaFileHash", "ImaInodeHash",
    "InodeStorageDelete", "InodeStorageGet", "Jiffies64", "KptrXchg", "KtimeGetBootNs",
    "KtimeGetCoarseNs", "KtimeGetNs", "KtimeGetTaiNs", "L3CsumReplace", "L4CsumReplace",
    "LoadHdrOpt", "Loop", "LwtPushEncap", "LwtSeg6Action", "LwtSeg6AdjustSrh",
    "LwtSeg6StoreBytes", "MapDeleteElem", "MapLookupElem", "MapLookupPercpuElem", "MapPeekElem",
    "MapPopElem", "MapPushElem", "MapUpdateElem", "MsgApplyBytes", "MsgCorkBytes", "MsgPopData",
    "MsgPullData", "MsgPushData", "MsgRedirectHash", "MsgRedirectMap", "OverrideReturn",
    "PerCpuPtr", "PerfEventOutput", "PerfEventRead", "PerfEventReadValue", "PerfProgReadValue",
    "ProbeRead", "ProbeReadKernel", "ProbeReadKernelStr", "ProbeReadStr", "ProbeReadUser",
    "ProbeReadUserStr", "ProbeWriteUser", "RcKeydown", "RcPointerRel", "RcRepeat",
    "ReadBranchRecords", "Redirect", "RedirectMap", "RedirectNeigh", "RedirectPeer",
    "ReserveHdrOpt", "RingbufDiscard", "RingbufDiscardDynptr", "RingbufOutput", "RingbufQuery",
    "RingbufReserve", "RingbufReserveDynptr", "RingbufSubmit", "RingbufSubmitDynptr",
    "SendSignal", "SendSignalThread", "SeqPrintfBtf", "SeqWrite", "SetHash", "SetHashInvalid",
    "SetRetval", "Setsockopt", "SkAncestorCgroupId", "SkAssign", "SkCgroupId", "SkFullsock",
    "SkLookupTcp", "SkLookupUdp", "SkRedirectHash", "SkRedirectMap", "SkRelease",
    "SkSelectReuseport", "SkStorageDelete", "SkStorageGet", "SkbAdjustRoom",
    "SkbAncestorCgroupId", "SkbCgroupClassid", "SkbCgroupId", "SkbChangeHead", "SkbChangeProto",
    "SkbChangeTail", "SkbChangeType", "SkbEcnSetCe", "SkbGetTunnelKey", "SkbGetTunnelOpt",
    "SkbGetXfrmState", "SkbLoadBytes", "SkbLoadBytesRelative", "SkbOutput", "SkbPullData",
    "SkbSetTstamp", "SkbSetTunnelKey", "SkbSetTunnelOpt", "SkbStoreBytes", "SkbUnderCgroup",
    "SkbVlanPop", "SkbVlanPush", "SkcLookupTcp", "SkcToMptcpSock", "SkcToTcp6Sock",
    "SkcToTcpRequestSock", "SkcToTcpSock", "SkcToTcpTimewaitSock", "SkcToUdp6Sock",
    "SkcToUnixSock", "SockFromFile", "SockHashUpdate", "SockMapUpdate", "SockOpsCbFlagsSet",
    "SpinLock", "SpinUnlock", "StoreHdrOpt", "SysBpf", "SysClose", "TailCall", "TaskPtRegs",
    "TaskStorageDelete", "TaskStorageGet", "TcpCheckSyncookie", "TcpGenSyncookie",
    "TcpRawCheckSyncookieIpv4", "TcpRawCheckSyncookieIpv6", "TcpRawGenSyncookieIpv4",
    "TcpRawGenSyncookieIpv6", "TcpSendAck", "TcpSock", "ThisCpuPtr", "TimerCancel", "TimerInit",
    "TimerSetCallback", "TimerStart", "UserRingbufDrain", "XdpAdjustHead", "XdpAdjustMeta",
    "XdpAdjustTail", "XdpGetBuffLen", "XdpLoadBytes", "XdpOutput", "XdpStoreBytes"]

/-- The functions of the `bpf` package that are printed under a name of their own. -/
def bpfPackageFuncs : List Text :=
  bpfHelperFuncs.map Prod.fst ++ generatedFuncs

/-- The functions of the `bpf` package that are expanded. -/
def sugarFuncs : List Text :=
  ["GetCurrentPid", "GetCurrentTid", "GetCurrentUid", "GetCurrentGid", "GetTaskComm",
    "GetUserString", "GetUserArgv"]

/-- The helpers that the expansions call, and the prelude helper. -/
def sugarCallees : List Text :=
  ["bpf_get_current_pid_tgid", "bpf_get_current_uid_gid", "bpf_get_current_comm",
    "bpf_probe_read_user_str", "gobee_read_user_argv"]

/-- The helpers that the expansions for the current task call. -/
def currentCallees : List Text := ["bpf_get_current_pid_tgid", "bpf_get_current_uid_gid"]

/-- The kernel helpers behind the map methods. -/
def mapCallees : List Text :=
  ["bpf_map_lookup_elem", "bpf_map_update_elem", "bpf_map_delete_elem", "bpf_ringbuf_reserve",
    "bpf_ringbuf_submit", "bpf_ringbuf_discard", "bpf_ringbuf_output", "bpf_map_push_elem",
    "bpf_map_pop_elem", "bpf_map_peek_elem", "bpf_tail_call", "bpf_perf_event_output",
    "bpf_task_storage_get", "bpf_task_storage_delete", "bpf_sk_storage_get",
    "bpf_sk_storage_delete", "bpf_inode_storage_get", "bpf_inode_storage_delete",
    "bpf_redirect_map"]

/-- The names that come from the tables. -/
def tableCallees : List Text := mapCallees ++ sugarCallees ++ bpfPackageFuncs.map helperName

/-- The methods of the map types. -/
def mapMethods : List (Text × List Text) :=
  [("ArrayMap", ["Lookup", "Update", "Delete"]), ("HashMap", ["Lookup", "Update", "Delete"]),
    ("LruHashMap", ["Lookup", "Update", "Delete"]),
    ("PerCPUArray", ["Lookup", "Update", "Delete"]),
    ("PerCPUHash", ["Lookup", "Update", "Delete"]),
    ("LruPerCPUHash", ["Lookup", "Update", "Delete"]),
    ("LpmTrie", ["Lookup", "Update", "Delete"]), ("BloomFilter", ["Add", "Contains"]),
    ("Queue", ["Push", "Pop", "Peek"]), ("Stack", ["Push", "Pop", "Peek"]),
    ("RingBuf", ["Reserve", "Submit", "Discard", "Output"]), ("ProgArray", ["TailCall"]),
    ("PerfEventArray", ["Output"]), ("DevMap", ["Redirect"]), ("CpuMap", ["Redirect"]),
    ("XskMap", ["Redirect"]), ("TaskStorage", ["Get", "GetOrCreate", "Delete"]),
    ("SkStorage", ["Get", "GetOrCreate", "Delete"]),
    ("InodeStorage", ["Get", "GetOrCreate", "Delete"])]

/-! ## Closed calls -/

/-- The functions of the file that are emitted. -/
def functionNames (prog : Program) : List Text :=
  prog.helpers.map HelperFunc.name ++ prog.programs.map ProgramFunc.name

/-- A C expression without the parentheses around it. -/
def unparenTree : CTree → CTree
  | .paren e => unparenTree e
  | e => e

/-- The callee is a name from the tables or a function of the file. -/
def ClosedCallee (prog : Program) (f : CTree) : Prop :=
  (∃ w, unparenTree f = name w ∧ w ∈ tableCallees) ∨
  ∃ w id, unparenTree f = .leaf w (some id) ∧ w ∈ functionNames prog

/-- A call with a closed callee. -/
def ClosedCall (prog : Program) : CTree → Prop
  | .call f _ => ClosedCallee prog f
  | _ => True

/-- The calls of an expression. -/
def callNodes (t : CTree) : List CTree := t.collect (fun c => [c]) (fun _ _ => [])

/-- The identifier is an emitted map. -/
def IsMap (prog : Program) (id : Ident) : Prop :=
  ∃ obj m, prog.info.uses id = some obj ∧ m ∈ prog.maps ∧ m.name = id.name ∧
    m.pos = prog.position obj.decl.pos

/-- The type of a map, seen through a pointer. -/
def mapTypeOf (prog : Program) (x : Expr) : Option (TypeName × List GoType) :=
  match (prog.info.typeOf x).map stripPointer with
  | some (.named n targs) => if n.pkg = some bpfPkgPath then some (n, targs) else none
  | _ => none

/-- The selector names a method of a map type. -/
def IsMapMethod (prog : Program) (x : Expr) (sel : Text) : Prop :=
  ∃ n targs methods, mapTypeOf prog x = some (n, targs) ∧
    mapMethods.lookup n.name = some methods ∧ sel ∈ methods

/-- The methods that finish a record. -/
def Finishes (sel : Text) : Prop := sel = "Submit" ∨ sel = "Discard"

instance (sel : Text) : Decidable (Finishes sel) := inferInstanceAs (Decidable (_ ∨ _))

/-- The tree is a helper call on the address of the map, or, for the methods that finish
a record, on that record. -/
def KernelCall (prog : Program) (aliases : Aliases) (x : Expr) (sel : Text) (args : List Expr)
    (t : CTree) : Prop :=
  ∃ w as, t = .call (name w) as ∧ w ∈ mapCallees ∧
    ((∃ id, x = .ident id ∧ IsMap prog id ∧ addrOf id ∈ as) ∨
      (Finishes sel ∧
        ∃ a rest, as = a :: rest ∧ argTree (nodeTrees prog aliases args) 0 = .ok a))

/-- The calls of an emitted body have closed callees. -/
def CalleesClosed (prog : Program) (cs : List CStmt) : Prop :=
  ∀ t ∈ blockTrees cs, ∀ c ∈ callNodes t, ClosedCall prog c

/-- The map methods that a function calls are lowered. -/
structure MethodsLowered (prog : Program) (fd : FuncDecl) (cs : List CStmt) : Prop where
  /-- every call of one is emitted: it is printed, or it reserves a record -/
  emitted : ∀ x sel args, .expr (.call (.selector x sel) args) ∈ fd.nodes →
    IsMapMethod prog x sel.name → .expr (.call (.selector x sel) args) ∉ funcLeftOut prog fd ∧
      Accounted prog (funcNodes prog fd) [] (.selector x sel) args
  /-- a printed call is a helper call -/
  calls : ∀ x sel args, .expr (.call (.selector x sel) args) ∈ funcNodes prog fd →
    IsMapMethod prog x sel.name →
    ∃ aliases t, formTree prog aliases (.selector x sel) args = .ok t ∧
      (∃ u ∈ blockTrees cs, t ∈ callNodes u) ∧ KernelCall prog aliases x sel.name args t
  /-- a record is reserved in an emitted map -/
  reserves : ∀ buf valC, .reserve buf valC ∈ funcNodes prog fd →
    IsMap prog buf ∧ ∃ u ∈ blockTrees cs, reserveTree buf valC ∈ callNodes u

/-! ## What the Go front-end promises -/

/-- The identifier is the second name of a comma-ok statement of an emitted function. -/
def OkIdent (prog : Program) (okId : Ident) : Prop :=
  ∃ fd ∈ emittedFuncs prog, ∃ v r, .stmt (.assign [v, .ident okId] .define [r]) ∈ fd.nodes

/-- The type checker lets an expression be called: it is no constant, no pointer and no
`ok` of a comma-ok statement. -/
structure Callable (prog : Program) (fn : Expr) : Prop where
  literal : ∀ pos kind value, unparen fn ≠ .basicLit pos kind value
  constant : ∀ x sel, unparen fn = .selector x sel → bpfConstant prog x sel = none
  pointer : ∀ fn' args, unparen fn = .call fn' args → isUnsafePointer fn' = false
  object : ∀ id obj, unparen fn = .ident id → prog.info.uses id = some obj →
    (∀ val, obj.kind ≠ .const val) ∧
      ∀ okId o, OkIdent prog okId → prog.info.defsAt okId = some o → o.decl ≠ obj.decl

/-- What `go/types` and the declarations of the `bpf` package promise about calls. -/
structure CallFacts (prog : Program) : Prop where
  /-- a package name has no type, and the package has no `Pointer` -/
  package : ∀ x, isBpfPackage prog x = true → mapTypeOf prog x = none
  noPointer : ∀ fd ∈ emittedFuncs prog, ∀ fn args, .expr (.call fn args) ∈ funcNodes prog fd →
    bpfFunction prog fn ≠ some ("Pointer" : Text)
  /-- a map variable is no pointer -/
  mapType : ∀ id, IsMap prog id → ∃ n targs, prog.info.typeOf (.ident id) = some (.named n targs)
  callable : ∀ fd ∈ emittedFuncs prog, ∀ fn args, .expr (.call fn args) ∈ funcNodes prog fd →
    Callable prog fn

/-- A map type has all its type arguments. -/
structure Applied (n : TypeName) (targs : List GoType) : Prop where
  lookup : n.name ∈ kernelMapGoTypes → ∃ k v, targs = [k, v]
  storage : (storageMapHelpers.lookup n.name).isSome → ∃ v, targs = [v]

/-- What is promised about map methods besides: the receiver of a call has an instance of a
map type. -/
structure MapFacts (prog : Program) : Prop extends CallFacts prog where
  applied : ∀ fd ∈ emittedFuncs prog, ∀ x sel args,
    .expr (.call (.selector x sel) args) ∈ funcNodes prog fd →
      ∀ n targs, mapTypeOf prog x = some (n, targs) → Applied n targs

/-! ## When a printed call is closed -/

/-- The shape of the call of a map method: on a map variable (or, to finish a record, on a
ring buffer), and none of the methods without a helper call. -/
def MapCallShape (prog : Program) (x : Expr) (sel : Text) : Prop :=
  ∃ id n targs, x = .ident id ∧ prog.info.typeOf x = some (.named n targs) ∧
    n.name ≠ "BloomFilter" ∧ ¬ (n.name = "RingBuf" ∧ sel = "Reserve") ∧
    (IsMap prog id ∨ Finishes sel)

/-- The shape of a call: a map method as above, a function of the `bpf` package, a function
of the file, or a conversion to a basic type or to `unsafe.Pointer`. -/
def CallShape (prog : Program) (fn : Expr) (args : List Expr) : Prop :=
  (∀ x sel, fn = .selector x sel → IsMapMethod prog x sel.name → MapCallShape prog x sel.name) ∧
  (∀ f, bpfFunction prog fn = some f → f ∈ sugarFuncs ∨ helperName f ∈ tableCallees) ∧
  (callForm prog fn args.length = .user →
    ∃ id, unparen fn = .ident id ∧ id.name ∈ functionNames prog)

/-- The condition on a printed node. -/
def NodeShape (prog : Program) : PNode → Prop
  | .expr (.call fn args) => CallShape prog fn args
  | .expr _ => True
  | .reserve buf _ => IsMap prog buf

/-- The condition on a function: its printed nodes have the shapes, and no map method is
called in a part that is left out. -/
structure FuncShape (prog : Program) (fd : FuncDecl) : Prop where
  nodes : ∀ nd ∈ funcNodes prog fd, NodeShape prog nd
  leftOut : ∀ x sel args, .expr (.call (.selector x sel) args) ∈ funcLeftOut prog fd →
    ¬ IsMapMethod prog x sel.name

/-! ## Recognised map methods -/

section

variable {prog : Program} {x : Expr} {sel : Ident} {n : TypeName} {targs : List GoType}

theorem mapTypeOf_some (h : mapTypeOf prog x = some (n, targs)) :
    (prog.info.typeOf x).map stripPointer = some (.named n targs) ∧ n.pkg = some bpfPkgPath := by
  unfold mapTypeOf at h
  split at h
  · rename_i htype
    split at h
    · cases h
      exact ⟨htype, ‹_›⟩
    · cases h
  · cases h

/-- The parts of a helper call of a map method: the address of the map, or the record to
finish. -/
def MapParts (id : Ident) (sel : Text) (form : CallForm) : Prop :=
  ∃ w parts, form = .helper w parts ∧ w ∈ mapCallees ∧
    ((.addr id ∈ parts ∧ ¬ Finishes sel) ∨ (Finishes sel ∧ ∃ rest, parts = .arg 0 :: rest))

theorem methodOf_value {recv : Ident} (htype : prog.info.typeOf (.ident recv) = some (.named n targs))
    (hpkg : n.pkg = some bpfPkgPath) :
    methodOf prog id (.selector (.ident recv) sel) = some ⟨recv, sel.name, n.name, targs⟩ := by
  unfold methodOf
  simp only [htype, Option.map_some, id, hpkg, if_true]

/-- The methods of the maps that have lookups are recognised. -/
theorem lookupMap_form {recv : Ident} (nargs : Nat)
    (hm : methodOf prog id (.selector (.ident recv) sel) = some ⟨recv, sel.name, n.name, targs⟩)
    (htype : n.name ∈ kernelMapGoTypes) (htargs : ∃ k v, targs = [k, v])
    (hsel : sel.name ∈ (["Lookup", "Update", "Delete"] : List Text)) :
    MapParts recv sel.name (callForm prog (.selector (.ident recv) sel) nargs) := by
  obtain ⟨k, v, rfl⟩ := htargs
  obtain ⟨helper, hhelper, hmem, hfinish⟩ : ∃ helper,
      mapMethodToHelper.lookup sel.name = some helper ∧ helper ∈ mapCallees ∧
        ¬ Finishes sel.name := by
    simp only [List.mem_cons, List.not_mem_nil, or_false] at hsel
    rcases hsel with h | h | h <;> rw [h]
    · exact ⟨"bpf_map_lookup_elem", rfl, by decide, by decide⟩
    · exact ⟨"bpf_map_update_elem", rfl, by decide, by decide⟩
    · exact ⟨"bpf_map_delete_elem", rfl, by decide, by decide⟩
  have hcall : mapMethodCall prog (.selector (.ident recv) sel) =
      some (⟨recv, sel.name, n.name, [k, v]⟩, v, helper) := by
    unfold mapMethodCall
    simp only [hm, hhelper, htype, if_true]
  rw [mapMethodCall_form nargs hcall]
  exact ⟨helper, _, rfl, hmem, .inl ⟨List.mem_append_left _ List.mem_cons_self, hfinish⟩⟩

/-- The methods of the storage maps are recognised. -/
theorem storageMap_form {recv : Ident} {fns : Text × Text} (nargs : Nat)
    (hm : methodOf prog id (.selector (.ident recv) sel) = some ⟨recv, sel.name, n.name, targs⟩)
    (hfns : storageMapHelpers.lookup n.name = some fns) (htargs : ∃ v, targs = [v])
    (hmem : fns.1 ∈ mapCallees ∧ fns.2 ∈ mapCallees)
    (hsel : sel.name ∈ (["Get", "GetOrCreate", "Delete"] : List Text)) :
    MapParts recv sel.name (callForm prog (.selector (.ident recv) sel) nargs) := by
  obtain ⟨v, rfl⟩ := htargs
  have hinfo : storageMapInfo prog (.selector (.ident recv) sel) =
      some (⟨recv, sel.name, n.name, [v]⟩, v, fns.1, fns.2) := by
    unfold storageMapInfo
    simp only [methodOf_stripPointer hm, hfns]
  simp only [List.mem_cons, List.not_mem_nil, or_false] at hsel
  rcases hsel with h | h | h
  · rw [storageMapInfo_form nargs hinfo (by
      unfold storageForm
      simp only [h]
      rfl)]
    exact ⟨fns.1, _, rfl, hmem.1, .inl ⟨List.mem_cons_self, by rw [h]; decide⟩⟩
  · rw [storageMapInfo_form nargs hinfo (by
      unfold storageForm
      simp only [h]
      rfl)]
    exact ⟨fns.1, _, rfl, hmem.1, .inl ⟨List.mem_cons_self, by rw [h]; decide⟩⟩
  · rw [storageMapInfo_form nargs hinfo (by
      unfold storageForm
      simp only [h]
      rfl)]
    exact ⟨fns.2, _, rfl, hmem.2, .inl ⟨List.mem_cons_self, by rw [h]; decide⟩⟩

/-- The methods of the other maps are recognised by the type and the name alone. -/
theorem otherMap_form {recv : Ident} {type selName : Text} (nargs : Nat)
    (hm : methodOf prog id (.selector (.ident recv) sel) = some ⟨recv, selName, type, targs⟩)
    (hstorage : storageMapHelpers.lookup type = none) (hpointer : selName ≠ "Pointer")
    {form : CallForm} (hform : (ringbufForm ⟨recv, selName, type, targs⟩).or
      ((queueForm ⟨recv, selName, type, targs⟩).or ((progArrayForm ⟨recv, selName, type, targs⟩).or
        ((perfEventArrayForm ⟨recv, selName, type, targs⟩).or
          (redirectForm ⟨recv, selName, type, targs⟩)))) = some form) :
    callForm prog (.selector (.ident recv) sel) nargs = form := by
  have hinfo : storageMapInfo prog (.selector (.ident recv) sel) = none := by
    unfold storageMapInfo
    simp only [methodOf_stripPointer hm, hstorage]
  refine callForm_method hm hpointer ?_
  unfold methodForm
  rw [hm, methodOf_stripPointer hm, hinfo]
  have hor := congrArg (fun f => f.or ((mapMethodCall prog (.selector (.ident recv) sel)).map
    (mapForm nargs))) hform
  simpa only [Option.bind_some, Option.bind_none, Option.none_or, Option.or_assoc,
    Option.some_or] using hor

theorem otherMap_parts {recv : Ident} {type selName w : Text} {parts : List ArgPart} (nargs : Nat)
    (hm : methodOf prog id (.selector (.ident recv) sel) = some ⟨recv, sel.name, n.name, targs⟩)
    (htype : n.name = type) (hsel : sel.name = selName)
    (hstorage : storageMapHelpers.lookup type = none) (hpointer : selName ≠ "Pointer")
    (hform : (ringbufForm ⟨recv, selName, type, targs⟩).or
      ((queueForm ⟨recv, selName, type, targs⟩).or ((progArrayForm ⟨recv, selName, type, targs⟩).or
        ((perfEventArrayForm ⟨recv, selName, type, targs⟩).or
          (redirectForm ⟨recv, selName, type, targs⟩)))) = some (.helper w parts))
    (hw : w ∈ mapCallees) (hparts : (.addr recv ∈ parts ∧ ¬ Finishes selName) ∨
      (Finishes selName ∧ ∃ rest, parts = .arg 0 :: rest)) :
    MapParts recv sel.name (callForm prog (.selector (.ident recv) sel) nargs) := by
  rw [htype, hsel] at hm
  rw [otherMap_form nargs hm hstorage hpointer hform, hsel]
  exact ⟨w, parts, rfl, hw, hparts⟩

/-- A method of a map variable is recognised, unless it is one of a bloom filter or a
reservation. -/
theorem mapMethod_form {recv : Ident} {methods : List Text} (nargs : Nat)
    (happlied : Applied n targs) (htype : prog.info.typeOf (.ident recv) = some (.named n targs))
    (hpkg : n.pkg = some bpfPkgPath) (hmethods : mapMethods.lookup n.name = some methods)
    (hsel : sel.name ∈ methods) (hbloom : n.name ≠ "BloomFilter")
    (hreserve : ¬ (n.name = "RingBuf" ∧ sel.name = "Reserve")) :
    MapParts recv sel.name (callForm prog (.selector (.ident recv) sel) nargs) := by
  have hm := @methodOf_value prog sel n targs recv htype hpkg
  obtain ⟨l₁, l₂, hrows, -⟩ := List.lookup_eq_some_iff.mp hmethods
  have hmem : (n.name, methods) ∈ mapMethods := by
    rw [hrows]
    exact List.mem_append_right _ List.mem_cons_self
  simp only [mapMethods, List.mem_cons, List.not_mem_nil, or_false, Prod.mk.injEq] at hmem
  have hlookup : n.name ∈ kernelMapGoTypes → methods = ["Lookup", "Update", "Delete"] →
      MapParts recv sel.name (callForm prog (.selector (.ident recv) sel) nargs) := by
    rintro ht rfl
    exact lookupMap_form nargs hm ht (happlied.lookup ht) hsel
  have hstorage : ∀ {fns : Text × Text}, storageMapHelpers.lookup n.name = some fns →
      fns.1 ∈ mapCallees ∧ fns.2 ∈ mapCallees → methods = ["Get", "GetOrCreate", "Delete"] →
      MapParts recv sel.name (callForm prog (.selector (.ident recv) sel) nargs) := by
    rintro fns hfns hcallees rfl
    have htargs := happlied.storage (by rw [hfns]; rfl)
    exact storageMap_form nargs hm hfns htargs hcallees hsel
  -- one row of the table at a time
  rcases hmem with ⟨ht, hms⟩ | ⟨ht, hms⟩ | ⟨ht, hms⟩ | ⟨ht, hms⟩ | ⟨ht, hms⟩ | ⟨ht, hms⟩ |
    ⟨ht, hms⟩ | ⟨ht, -⟩ | ⟨ht, rfl⟩ | ⟨ht, rfl⟩ | ⟨ht, rfl⟩ | ⟨ht, rfl⟩ | ⟨ht, rfl⟩ | ⟨ht, rfl⟩ |
    ⟨ht, rfl⟩ | ⟨ht, rfl⟩ | ⟨ht, hms⟩ | ⟨ht, hms⟩ | ⟨ht, hms⟩
  · exact hlookup (by rw [ht]; decide) hms
  · exact hlookup (by rw [ht]; decide) hms
  · exact hlookup (by rw [ht]; decide) hms
  · exact hlookup (by rw [ht]; decide) hms
  · exact hlookup (by rw [ht]; decide) hms
  · exact hlookup (by rw [ht]; decide) hms
  · exact hlookup (by rw [ht]; decide) hms
  -- `Add` and `Contains` of a bloom filter have no lowering
  · exact absurd ht hbloom
  · simp only [List.mem_cons, List.not_mem_nil, or_false] at hsel
    rcases hsel with hs | hs | hs
    · exact otherMap_parts nargs hm ht hs rfl (by decide) rfl (by decide)
        (.inl ⟨List.mem_cons_self, by decide⟩)
    · exact otherMap_parts nargs hm ht hs rfl (by decide) rfl (by decide)
        (.inl ⟨List.mem_cons_self, by decide⟩)
    · exact otherMap_parts nargs hm ht hs rfl (by decide) rfl (by decide)
        (.inl ⟨List.mem_cons_self, by decide⟩)
  · simp only [List.mem_cons, List.not_mem_nil, or_false] at hsel
    rcases hsel with hs | hs | hs
    · exact otherMap_parts nargs hm ht hs rfl (by decide) rfl (by decide)
        (.inl ⟨List.mem_cons_self, by decide⟩)
    · exact otherMap_parts nargs hm ht hs rfl (by decide) rfl (by decide)
        (.inl ⟨List.mem_cons_self, by decide⟩)
    · exact otherMap_parts nargs hm ht hs rfl (by decide) rfl (by decide)
        (.inl ⟨List.mem_cons_self, by decide⟩)
  · simp only [List.mem_cons, List.not_mem_nil, or_false] at hsel
    rcases hsel with hs | hs | hs | hs
    · exact absurd ⟨ht, hs⟩ hreserve
    · exact otherMap_parts nargs hm ht hs rfl (by decide) rfl (by decide)
        (.inr ⟨by decide, _, rfl⟩)
    · exact otherMap_parts nargs hm ht hs rfl (by decide) rfl (by decide)
        (.inr ⟨by decide, _, rfl⟩)
    · exact otherMap_parts nargs hm ht hs rfl (by decide) rfl (by decide)
        (.inl ⟨List.mem_cons_self, by decide⟩)
  · have hs := List.mem_singleton.mp hsel
    exact otherMap_parts nargs hm ht hs rfl (by decide) rfl (by decide)
      (.inl ⟨List.mem_cons_of_mem _ List.mem_cons_self, by decide⟩)
  · have hs := List.mem_singleton.mp hsel
    exact otherMap_parts nargs hm ht hs rfl (by decide) rfl (by decide)
      (.inl ⟨List.mem_cons_of_mem _ List.mem_cons_self, by decide⟩)
  · have hs := List.mem_singleton.mp hsel
    exact otherMap_parts nargs hm ht hs rfl (by decide) rfl (by decide)
        (.inl ⟨List.mem_cons_self, by decide⟩)
  · have hs := List.mem_singleton.mp hsel
    exact otherMap_parts nargs hm ht hs rfl (by decide) rfl (by decide)
        (.inl ⟨List.mem_cons_self, by decide⟩)
  · have hs := List.mem_singleton.mp hsel
    exact otherMap_parts nargs hm ht hs rfl (by decide) rfl (by decide)
        (.inl ⟨List.mem_cons_self, by decide⟩)
  · exact hstorage (by rw [ht]; rfl) (by decide) hms
  · exact hstorage (by rw [ht]; rfl) (by decide) hms
  · exact hstorage (by rw [ht]; rfl) (by decide) hms

end

/-! ## The forms of calls and their callees -/

section

variable {prog : Program} {fn : Expr} {nargs : Nat}

theorem storageHelpers_mapCallees {t getFn deleteFn : Text}
    (h : storageMapHelpers.lookup t = some (getFn, deleteFn)) :
    getFn ∈ mapCallees ∧ deleteFn ∈ mapCallees := by
  obtain ⟨l₁, l₂, hrows, -⟩ := List.lookup_eq_some_iff.mp h
  have hmem : (t, getFn, deleteFn) ∈ storageMapHelpers := by
    rw [hrows]
    exact List.mem_append_right _ List.mem_cons_self
  have htable : ∀ row ∈ storageMapHelpers, row.2.1 ∈ mapCallees ∧ row.2.2 ∈ mapCallees := by
    decide
  exact htable _ hmem

/-- What a recognised method is: no method of a bloom filter and no reservation, and a
record is finished on a ring buffer itself. -/
theorem methodForm_some {form : CallForm} (h : methodForm prog fn nargs = some form) :
    ∃ m w parts, methodOf prog stripPointer fn = some m ∧ form = .helper w parts ∧
      w ∈ mapCallees ∧ m.type ≠ "BloomFilter" ∧ ¬ (m.type = "RingBuf" ∧ m.sel = "Reserve") ∧
      (Finishes m.sel → methodOf prog id fn = some m) := by
  have hvalue : ∀ {f : Method → Option CallForm}, (methodOf prog id fn).bind f = some form →
      ∃ m, methodOf prog id fn = some m ∧ f m = some form := by
    intro f hf
    exact Option.bind_eq_some_iff.mp hf
  unfold methodForm at h
  simp only [Option.or_eq_some_iff] at h
  -- the families in the order in which they are tried
  rcases h with h | ⟨-, h | ⟨-, h | ⟨-, h | ⟨-, h | ⟨-, h | ⟨-, h⟩⟩⟩⟩⟩⟩
  · obtain ⟨m, hm, hf⟩ := hvalue h
    unfold ringbufForm at hf
    split_ifs at hf with htype h₁ h₂ h₃ <;> cases hf <;>
      exact ⟨m, _, _, methodOf_stripPointer hm, rfl, by decide, by rw [htype]; decide,
        fun hc => by simp_all, fun _ => hm⟩
  · obtain ⟨m, hm, hf⟩ := hvalue h
    unfold queueForm at hf
    split_ifs at hf with htype h₁ h₂ h₃ <;> cases hf <;>
      exact ⟨m, _, _, methodOf_stripPointer hm, rfl, by decide,
        by rcases htype with ht | ht <;> rw [ht] <;> decide,
        fun hc => by rcases htype with ht | ht <;> rw [ht] at hc <;> exact absurd hc.1 (by decide),
        fun _ => hm⟩
  · obtain ⟨m, hm, hf⟩ := hvalue h
    unfold progArrayForm at hf
    split_ifs at hf with htype
    cases hf
    refine ⟨m, _, _, methodOf_stripPointer hm, rfl, by decide, ?_, ?_, fun _ => hm⟩
    · rw [htype.2]
      decide
    · rw [htype.2]
      exact fun hc => absurd hc.1 (by decide)
  · obtain ⟨m, hm, hf⟩ := hvalue h
    unfold perfEventArrayForm at hf
    split_ifs at hf with htype
    cases hf
    refine ⟨m, _, _, methodOf_stripPointer hm, rfl, by decide, ?_, ?_, fun _ => hm⟩
    · rw [htype.2]
      decide
    · rw [htype.2]
      exact fun hc => absurd hc.1 (by decide)
  · obtain ⟨⟨m, valType, getFn, deleteFn⟩, hs, hf⟩ := Option.bind_eq_some_iff.mp h
    obtain ⟨hm, hfns⟩ := storageMapInfo_some hs
    obtain ⟨hget, hdelete⟩ := storageHelpers_mapCallees hfns
    have htypes : m.type ≠ "BloomFilter" ∧ m.type ≠ "RingBuf" := by
      rcases storageMap_type hfns with ht | ht | ht <;> rw [ht] <;> decide
    have hring : ¬ (m.type = "RingBuf" ∧ m.sel = "Reserve") := fun hc => htypes.2 hc.1
    unfold storageForm at hf
    split_ifs at hf with h₁ h₂ h₃
    · cases hf
      refine ⟨m, _, _, hm, rfl, hget, htypes.1, hring, fun hc => ?_⟩
      rw [show m.sel = "GetOrCreate" from h₁] at hc
      exact absurd hc (by decide)
    · cases hf
      refine ⟨m, _, _, hm, rfl, hdelete, htypes.1, hring, fun hc => ?_⟩
      rw [show m.sel = "Delete" from h₂] at hc
      exact absurd hc (by decide)
    · cases hf
      refine ⟨m, _, _, hm, rfl, hget, htypes.1, hring, fun hc => ?_⟩
      rw [show m.sel = "Get" from h₃] at hc
      exact absurd hc (by decide)
  · obtain ⟨m, hm, hf⟩ := Option.bind_eq_some_iff.mp h
    unfold redirectForm at hf
    split_ifs at hf with htype
    cases hf
    have htypes : m.type ≠ "BloomFilter" ∧ m.type ≠ "RingBuf" := by
      obtain ⟨-, ht⟩ := htype
      simp only [redirectMapTypes, List.mem_cons, List.not_mem_nil, or_false] at ht
      rcases ht with ht | ht | ht <;> rw [ht] <;> decide
    refine ⟨m, _, _, hm, rfl, by decide, htypes.1, fun hc => htypes.2 hc.1, fun hc => ?_⟩
    rw [htype.1] at hc
    exact absurd hc (by decide)
  · obtain ⟨⟨m, valType, helper⟩, hcall, hf⟩ := Option.map_eq_some_iff.mp h
    obtain ⟨hm, hsel, htype⟩ := mapMethodCall_some hcall
    have htypes : m.type ≠ "BloomFilter" ∧ m.type ≠ "RingBuf" := by
      simp only [kernelMapGoTypes, List.mem_cons, List.not_mem_nil, or_false] at htype
      rcases htype with ht | ht | ht | ht | ht | ht | ht <;> rw [ht] <;> decide
    have hmem : helper ∈ mapCallees := by
      rcases mapMethod_sel hsel with ⟨-, hh⟩ | ⟨-, hh⟩ | ⟨-, hh⟩ <;> rw [hh] <;> decide
    cases hf
    exact ⟨m, _, _, methodOf_stripPointer hm, rfl, hmem, htypes.1, fun hc => htypes.2 hc.1,
      fun _ => hm⟩

/-- The form of a call of a `bpf` function. -/
theorem bpfForm_cases (f : Text) :
    (f ∈ sugarFuncs ∧ ∃ ty e, bpfForm nargs f = .sugar (.cast ty e) ∧
      ∀ c ∈ callNodes e, ∃ w, c = nullaryCall w ∧ w ∈ currentCallees) ∨
    (∃ w parts, bpfForm nargs f = .helper w parts ∧ w ∈ sugarCallees ∧ f ∈ sugarFuncs ∧
      (w = "gobee_read_user_argv" → f = "GetUserArgv")) ∨
    (f ∉ sugarFuncs ∧ bpfForm nargs f = .helper (helperName f) (allArgs nargs)) := by
  have hnullary : ∀ w : Text, callNodes (nullaryCall w) = [nullaryCall w] := fun w => rfl
  by_cases hf : f ∈ sugarFuncs
  · simp only [sugarFuncs, List.mem_cons, List.not_mem_nil, or_false] at hf
    rcases hf with rfl | rfl | rfl | rfl | rfl | rfl | rfl
    · refine .inl ⟨by decide, _, _, rfl, ?_⟩
      intro c hc
      exact ⟨"bpf_get_current_pid_tgid", List.mem_singleton.mp hc, by decide⟩
    · refine .inl ⟨by decide, _, _, rfl, ?_⟩
      intro c hc
      exact ⟨"bpf_get_current_pid_tgid", List.mem_singleton.mp hc, by decide⟩
    · refine .inl ⟨by decide, _, _, rfl, ?_⟩
      intro c hc
      exact ⟨"bpf_get_current_uid_gid", List.mem_singleton.mp hc, by decide⟩
    · refine .inl ⟨by decide, _, _, rfl, ?_⟩
      intro c hc
      exact ⟨"bpf_get_current_uid_gid", List.mem_singleton.mp hc, by decide⟩
    · exact .inr (.inl ⟨_, _, rfl, by decide, by decide, by decide⟩)
    · exact .inr (.inl ⟨_, _, rfl, by decide, by decide, by decide⟩)
    · exact .inr (.inl ⟨_, _, rfl, by decide, by decide, by decide⟩)
  · refine .inr (.inr ⟨hf, ?_⟩)
    simp only [sugarFuncs, List.mem_cons, List.not_mem_nil, or_false, not_or] at hf
    obtain ⟨h₁, h₂, h₃, h₄, h₅, h₆, h₇⟩ := hf
    unfold bpfForm
    rw [if_neg h₁, if_neg h₂, if_neg h₃, if_neg h₄, if_neg h₅, if_neg h₆, if_neg h₇]

/-- Which form a call has. -/
theorem callForm_cases :
    (∃ cType, conversionType fn = some cType ∧ callForm prog fn nargs = .cast cType) ∨
    (isUnsafePointer fn = true ∧ callForm prog fn nargs = .bare) ∨
    (∃ form, methodForm prog fn nargs = some form ∧ callForm prog fn nargs = form) ∨
    (∃ f, methodForm prog fn nargs = none ∧ bpfFunction prog fn = some f ∧
      callForm prog fn nargs = bpfForm nargs f) ∨
    (methodForm prog fn nargs = none ∧ bpfFunction prog fn = none ∧
      callForm prog fn nargs = .user) := by
  unfold callForm
  cases conversionType fn with
  | some cType => exact .inl ⟨cType, rfl, rfl⟩
  | none =>
      refine .inr ?_
      by_cases hp : isUnsafePointer fn = true
      · exact .inl ⟨hp, by simp only [hp, if_true]⟩
      · refine .inr ?_
        simp only [hp, Bool.false_eq_true, if_false]
        cases hm : methodForm prog fn nargs with
        | some form => exact .inl ⟨form, rfl, rfl⟩
        | none =>
            cases hf : bpfFunction prog fn with
            | some f => exact .inr (.inl ⟨f, rfl, rfl, rfl⟩)
            | none => exact .inr (.inr ⟨rfl, rfl, rfl⟩)

theorem callForm_sugar {t : CTree} (h : callForm prog fn nargs = .sugar t) :
    ∃ ty e, t = .cast ty e ∧ ∀ c ∈ callNodes e, ∃ w, c = nullaryCall w ∧ w ∈ currentCallees := by
  rcases @callForm_cases prog fn nargs with ⟨c, -, hc⟩ | ⟨-, hc⟩ | ⟨form, hm, hc⟩ | ⟨f, -, -, hc⟩ |
      ⟨-, -, hc⟩
  · rw [hc] at h
    cases h
  · rw [hc] at h
    cases h
  · obtain ⟨m, w, parts, -, hform, -⟩ := methodForm_some hm
    rw [hc, hform] at h
    cases h
  · rw [hc] at h
    rcases @bpfForm_cases nargs f with ⟨-, ty, e, hf, he⟩ | ⟨w, parts, hf, -⟩ | ⟨-, hf⟩
    · rw [hf] at h
      cases h
      exact ⟨ty, e, rfl, he⟩
    · rw [hf] at h
      cases h
    · rw [hf] at h
      cases h
  · rw [hc] at h
    cases h

theorem callForm_bare (h : callForm prog fn nargs = .bare) : isUnsafePointer fn = true := by
  rcases @callForm_cases prog fn nargs with ⟨c, -, hc⟩ | ⟨hp, -⟩ | ⟨form, hm, hc⟩ | ⟨f, -, -, hc⟩ |
      ⟨-, -, hc⟩
  · rw [hc] at h
    cases h
  · exact hp
  · obtain ⟨m, w, parts, -, hform, -⟩ := methodForm_some hm
    rw [hc, hform] at h
    cases h
  · rw [hc] at h
    rcases @bpfForm_cases nargs f with ⟨-, ty, e, hf, -⟩ | ⟨w, parts, hf, -⟩ | ⟨-, hf⟩ <;>
      rw [hf] at h <;> cases h
  · rw [hc] at h
    cases h

theorem callForm_helper {w : Text} {parts : List ArgPart}
    (h : callForm prog fn nargs = .helper w parts) :
    (w ∈ mapCallees ∧ ∃ form, methodForm prog fn nargs = some form) ∨
      ∃ f, bpfFunction prog fn = some f ∧
        (w ∈ sugarCallees ∨ (f ∉ sugarFuncs ∧ w = helperName f)) := by
  rcases @callForm_cases prog fn nargs with ⟨c, -, hc⟩ | ⟨-, hc⟩ | ⟨form, hm, hc⟩ | ⟨f, -, hf, hc⟩ |
      ⟨-, -, hc⟩
  · rw [hc] at h
    cases h
  · rw [hc] at h
    cases h
  · obtain ⟨m, w', parts', -, hform, hw, -⟩ := methodForm_some hm
    rw [hc, hform] at h
    cases h
    exact .inl ⟨hw, form, hm⟩
  · rw [hc] at h
    refine .inr ⟨f, hf, ?_⟩
    rcases @bpfForm_cases nargs f with ⟨-, ty, e, hf, -⟩ | ⟨w', parts', hf, hw, -⟩ | ⟨hsugar, hf⟩
    · rw [hf] at h
      cases h
    · rw [hf] at h
      cases h
      exact .inl hw
    · rw [hf] at h
      cases h
      exact .inr ⟨hsugar, rfl⟩
  · rw [hc] at h
    cases h

end

/-! ## The callee of a call that is printed as it stands -/

/-- The keys of an alias table are `ok` variables. -/
def OkKeys (prog : Program) (aliases : Aliases) : Prop :=
  ∀ p ∈ aliases, ∃ okId o, OkIdent prog okId ∧ prog.info.defsAt okId = some o ∧ o.decl = p.1

theorem okKeys_survives (prog : Program) :
    Survives prog (fun s => ∃ fd ∈ emittedFuncs prog, .stmt s ∈ fd.nodes) (OkKeys prog) := by
  rintro v okId r n cName ⟨fd, hfd, hs⟩ hI
  unfold aliased
  cases ho : prog.info.defsAt okId with
  | none => exact hI
  | some o =>
      refine List.forall_mem_cons.mpr ⟨?_, hI⟩
      exact ⟨okId, o, ⟨fd, hfd, v, r, hs⟩, ho, rfl⟩

section

variable {prog : Program} {aliases : Aliases} {fn : Expr} {f : CTree}

theorem unparenTree_memberTree (b : CTree) (op field : Text) :
    ∀ w tag, unparenTree (memberTree b op field) ≠ .leaf w tag := by
  intro w tag
  unfold memberTree
  split
  · split <;> simp [unparenTree]
  · simp [unparenTree]

/-- A selector that is no constant is printed as a member access. -/
theorem selector_callee {x : Expr} {sel : Ident} (hconst : bpfConstant prog x sel = none)
    (hf : exprTree prog aliases (.selector x sel) = .ok f) :
    ∀ w tag, unparenTree f ≠ .leaf w tag := by
  rcases selectorTree_ok hf with ⟨c, hc, -⟩ | ⟨-, b, -, rfl⟩
  · rw [hconst] at hc
    cases hc
  · exact unparenTree_memberTree _ _ _

/-- The tree of an identifier that may be called. -/
theorem identTree_callable {id : Ident} (hkeys : OkKeys prog aliases)
    (hobject : ∀ obj, prog.info.uses id = some obj → (∀ val, obj.kind ≠ .const val) ∧
      ∀ okId o, OkIdent prog okId → prog.info.defsAt okId = some o → o.decl ≠ obj.decl) :
    identTree prog aliases id = .leaf id.name (some id) := by
  unfold identTree
  split
  · rfl
  · rename_i obj hobj
    obtain ⟨hconst, hok⟩ := hobject obj hobj
    have hlookup : aliases.lookup obj.decl = none := by
      cases hl : aliases.lookup obj.decl with
      | none => rfl
      | some c =>
          obtain ⟨l₁, l₂, hrows, -⟩ := List.lookup_eq_some_iff.mp hl
          obtain ⟨okId, o, hokId, ho, hdecl⟩ := hkeys (obj.decl, c) (by rw [hrows]; simp)
          exact absurd hdecl (hok okId o hokId ho)
    rw [hlookup]
    cases hk : obj.kind with
    | const val => exact absurd hk (hconst val)
    | _ => rfl

/-- The callee of a printed call is a name exactly when the Go callee is an identifier. -/
theorem callee_leaf (hkeys : OkKeys prog aliases) : ∀ {fn : Expr} {f : CTree},
    (∀ pos kind value, unparen fn ≠ .basicLit pos kind value) →
    (∀ x sel, unparen fn = .selector x sel → bpfConstant prog x sel = none) →
    (∀ fn' args, unparen fn = .call fn' args → isUnsafePointer fn' = false) →
    (∀ id obj, unparen fn = .ident id → prog.info.uses id = some obj →
      (∀ val, obj.kind ≠ .const val) ∧
        ∀ okId o, OkIdent prog okId → prog.info.defsAt okId = some o → o.decl ≠ obj.decl) →
    exprTree prog aliases fn = .ok f →
    (∃ id, unparen fn = .ident id ∧ unparenTree f = .leaf id.name (some id)) ∨
      ((∀ id, unparen fn ≠ .ident id) ∧ ∀ w tag, unparenTree f ≠ .leaf w tag)
  | .basicLit pos kind value, f, hlit, _, _, _, _ => absurd rfl (hlit pos kind value)
  | .ident id, f, _, _, _, hobject, hf => by
      cases hf
      refine .inl ⟨id, rfl, ?_⟩
      rw [identTree_callable hkeys fun obj => hobject id obj rfl]
      rfl
  | .selector x sel, f, _, hconst, _, _, hf =>
      .inr ⟨by simp [unparen], selector_callee (hconst x sel rfl) hf⟩
  | .unary pos op x, f, _, _, _, _, hf => by
      obtain ⟨inner, -, hf⟩ := bind_ok hf
      split at hf
      · cases hf
        exact .inr ⟨by simp [unparen], by simp [unparenTree]⟩
      · cases hf
  | .binary x op y, f, _, _, _, _, hf => by
      obtain ⟨l, -, hf⟩ := bind_ok hf
      obtain ⟨r, -, hf⟩ := bind_ok hf
      cases hf
      exact .inr ⟨by simp [unparen], by simp [unparenTree]⟩
  | .call fn' args, f, _, _, hpointer, _, hf => by
      refine .inr ⟨by simp [unparen], ?_⟩
      have hprints := callTree_prints hf
      cases hform : callForm prog fn' (nodeTrees prog aliases args).length with
      | cast cType =>
          rw [hform] at hprints
          obtain ⟨a, -, rfl⟩ := hprints
          simp [unparenTree]
      | bare =>
          exact absurd (callForm_bare hform) (by rw [hpointer fn' args rfl]; decide)
      | sugar t =>
          rw [hform] at hprints
          cases hprints
          obtain ⟨ty, e, rfl, -⟩ := callForm_sugar hform
          simp [unparenTree]
      | helper w parts =>
          rw [hform] at hprints
          obtain ⟨as, -, rfl⟩ := hprints
          simp [unparenTree]
      | user =>
          rw [hform] at hprints
          obtain ⟨f', as, -, -, rfl⟩ := hprints
          simp [unparenTree]
  | .paren pos x, f, hlit, hconst, hpointer, hobject, hf => by
      obtain ⟨inner, hinner, hf⟩ := bind_ok hf
      cases hf
      have hx : exprTree prog aliases x = .ok inner := hinner
      have hun : unparen (.paren pos x) = unparen x := rfl
      have htree : unparenTree (.paren inner) = unparenTree inner := rfl
      rw [hun] at hlit hconst hpointer hobject ⊢
      rw [htree]
      exact callee_leaf hkeys hlit hconst hpointer hobject hx
  | .index x i, f, _, _, _, _, hf => by
      obtain ⟨base, -, hf⟩ := bind_ok hf
      obtain ⟨idx, -, hf⟩ := bind_ok hf
      cases hf
      exact .inr ⟨by simp [unparen], by simp [unparenTree]⟩
  | .star pos x, f, _, _, _, _, hf => by
      obtain ⟨inner, -, hf⟩ := bind_ok hf
      cases hf
      exact .inr ⟨by simp [unparen], by simp [unparenTree]⟩
  | .other kind pos children, f, _, _, _, _, hf => by cases hf

theorem unparenTree_name (w : Text) : unparenTree (name w) = name w := rfl

theorem closedCallee_name {w : Text} : ClosedCallee prog (name w) ↔ w ∈ tableCallees := by
  unfold ClosedCallee
  rw [unparenTree_name]
  constructor
  · rintro (⟨w', heq, hw⟩ | ⟨w', id, heq, -⟩)
    · cases heq
      exact hw
    · cases heq
  · exact fun hw => .inl ⟨w, rfl, hw⟩

/-- The callee of a call that is printed as it stands is closed exactly when it is a
function of the file. -/
theorem closedCallee_iff (hkeys : OkKeys prog aliases) (hcallable : Callable prog fn)
    (hf : exprTree prog aliases fn = .ok f) :
    ClosedCallee prog f ↔ ∃ id, unparen fn = .ident id ∧ id.name ∈ functionNames prog := by
  rcases callee_leaf hkeys hcallable.literal hcallable.constant hcallable.pointer
      hcallable.object hf with ⟨id, hid, hleaf⟩ | ⟨hid, hleaf⟩
  · unfold ClosedCallee
    rw [hleaf]
    constructor
    · rintro (⟨w, heq, -⟩ | ⟨w, id', heq, hw⟩)
      · cases heq
      · cases heq
        exact ⟨id, hid, hw⟩
    · rintro ⟨id', hid', hname⟩
      rw [hid] at hid'
      cases hid'
      exact .inr ⟨id.name, id, rfl, hname⟩
  · constructor
    · rintro (⟨w, heq, -⟩ | ⟨w, id', heq, -⟩)
      · exact absurd heq (hleaf _ _)
      · exact absurd heq (hleaf _ _)
    · rintro ⟨id, heq, -⟩
      exact absurd heq (hid id)

/-- The part of a helper call that holds the address of a map. -/
theorem addr_mem_of_parts {parts : List ArgPart} {args : List (Result CTree)} {as : List CTree}
    {id : Ident} (has : sequence (parts.map (ArgPart.tree args)) = .ok as)
    (hmem : .addr id ∈ parts) : addrOf id ∈ as := by
  have h := @List.mem_map_of_mem _ _ parts (.addr id) (ArgPart.tree args) hmem
  rw [sequence_ok_iff.mp has] at h
  obtain ⟨a, ha, heq⟩ := List.mem_map.mp h
  cases heq
  exact ha

/-- A map method in the shape for it is lowered. -/
theorem kernelCall_of_shape {x : Expr} {sel : Ident} {args : List Expr} {t : CTree}
    (happlied : ∀ n targs, mapTypeOf prog x = some (n, targs) → Applied n targs)
    (hmethod : IsMapMethod prog x sel.name) (hshape : MapCallShape prog x sel.name)
    (ht : formTree prog aliases (.selector x sel) args = .ok t) :
    KernelCall prog aliases x sel.name args t ∧
      t ∈ own prog aliases (fun c => [c]) (fun _ _ => []) (.call (.selector x sel) args) := by
  obtain ⟨recv, n, targs, rfl, htype, hbloom, hreserve, hmap⟩ := hshape
  obtain ⟨n', targs', methods, hn', hmethods, hsel⟩ := hmethod
  obtain ⟨htype', hpkg⟩ := mapTypeOf_some hn'
  rw [htype] at htype'
  cases htype'
  obtain ⟨w, parts, hform, hw, hparts⟩ :=
    mapMethod_form args.length (happlied _ _ hn') htype hpkg hmethods hsel hbloom hreserve
  refine ⟨?_, by rw [own, hform, ht]; exact List.mem_append_left _ (List.mem_singleton_self t)⟩
  rw [formTree, hform] at ht
  obtain ⟨as, has, rfl⟩ := CallForm.helper_of_tree ht
  refine ⟨w, as, rfl, hw, ?_⟩
  rcases hparts with ⟨haddr, hfinish⟩ | ⟨hfinish, rest, hrest⟩
  · have hrecv := hmap.resolve_right hfinish
    exact .inl ⟨recv, rfl, hrecv, addr_mem_of_parts has haddr⟩
  · rw [hrest, List.map_cons] at has
    obtain ⟨a, as', ha, -, rfl⟩ := sequence_ok_cons.mp has
    exact .inr ⟨hfinish, a, as', rfl, ha⟩

theorem mapTypeOf_of_methodOf {x : Expr} {sel : Ident} {m : Method}
    (h : methodOf prog stripPointer (.selector x sel) = some m) :
    ∃ recv n targs, x = .ident recv ∧ m = ⟨recv, sel.name, n.name, targs⟩ ∧
      mapTypeOf prog x = some (n, targs) := by
  obtain ⟨recv, sel', n, targs, heq, rfl, htype, hpkg⟩ := methodOf_selector h
  cases heq
  refine ⟨recv, n, targs, rfl, rfl, ?_⟩
  unfold mapTypeOf
  simp only [htype, hpkg, if_true]

theorem bpfFunction_some {fn : Expr} {f : Text} (h : bpfFunction prog fn = some f) :
    ∃ x sel, fn = .selector x sel ∧ isBpfPackage prog x = true ∧ f = sel.name := by
  unfold bpfFunction at h
  split at h
  · rename_i x sel
    split_ifs at h with hpkg
    cases h
    exact ⟨x, sel, rfl, hpkg, rfl⟩
  · cases h

theorem isUnsafePointer_mapMethod {x : Expr} {sel : Ident} {type : Text} {methods : List Text}
    (hmethods : mapMethods.lookup type = some methods) (hsel : sel.name ∈ methods) :
    isUnsafePointer (.selector x sel) = false := by
  have htable : ∀ row ∈ mapMethods, ("Pointer" : Text) ∉ row.2 := by decide
  obtain ⟨l₁, l₂, hrows, -⟩ := List.lookup_eq_some_iff.mp hmethods
  have hmem : (type, methods) ∈ mapMethods := by
    rw [hrows]
    exact List.mem_append_right _ List.mem_cons_self
  have hne : sel.name ≠ "Pointer" := by
    intro heq
    rw [heq] at hsel
    exact htable _ hmem hsel
  cases x with
  | ident pkg =>
      simp only [isUnsafePointer, Bool.and_eq_false_iff, beq_eq_false_iff_ne]
      exact .inl hne
  | _ => rfl

/-- A map method that is lowered has the shape for it. -/
theorem shape_of_kernelCall {x : Expr} {sel : Ident} {args : List Expr} {t : CTree}
    (hfacts : CallFacts prog) (hcallable : Callable prog (.selector x sel))
    (hmethod : IsMapMethod prog x sel.name)
    (ht : formTree prog aliases (.selector x sel) args = .ok t)
    (hcall : KernelCall prog aliases x sel.name args t) : MapCallShape prog x sel.name := by
  obtain ⟨w, as, rfl, -, hargs⟩ := hcall
  obtain ⟨n, targs, methods, hn, hmethods, hsel⟩ := hmethod
  -- the call is a helper call, and no package name has a map type
  obtain ⟨form, hform⟩ : ∃ form, methodForm prog (.selector x sel) args.length = some form := by
    rcases @callForm_cases prog (.selector x sel) args.length with ⟨c, hc, -⟩ | ⟨hpointer, -⟩ |
        ⟨form, hm, -⟩ | ⟨f, -, hf, -⟩ | ⟨-, -, hc⟩
    · cases hc
    · exact absurd hpointer (by rw [isUnsafePointer_mapMethod hmethods hsel]; decide)
    · exact ⟨form, hm⟩
    · obtain ⟨x', sel', heq, hpkg, -⟩ := bpfFunction_some hf
      cases heq
      rw [hfacts.package x hpkg] at hn
      cases hn
    · rw [formTree, hc] at ht
      obtain ⟨f, as', hf, -, heq⟩ := CallForm.user_of_tree ht
      cases heq
      exact absurd rfl (selector_callee (hcallable.constant x sel rfl) hf _ _)
  obtain ⟨m, -, -, hm, -, -, hbloom, hreserve, hfinish⟩ := methodForm_some hform
  obtain ⟨recv, n', targs', rfl, rfl, hn'⟩ := mapTypeOf_of_methodOf hm
  rw [hn] at hn'
  cases hn'
  rcases hargs with ⟨id, heq, hmap, -⟩ | ⟨hfin, -⟩
  · cases heq
    obtain ⟨n'', targs'', htype⟩ := hfacts.mapType recv hmap
    obtain ⟨htype', -⟩ := mapTypeOf_some hn
    rw [htype] at htype'
    cases htype'
    exact ⟨recv, n, targs, rfl, htype, hbloom, hreserve, .inl hmap⟩
  · obtain ⟨recv', sel', n'', targs'', heq, heq', htype, -⟩ := methodOf_selector (hfinish hfin)
    cases heq
    rw [Option.map_id_fun, id] at htype
    obtain ⟨htype', -⟩ := mapTypeOf_some hn
    rw [htype] at htype'
    cases htype'
    exact ⟨recv, n, targs, rfl, htype, hbloom, hreserve, .inr hfin⟩

theorem callNodes_constTree (val : ConstVal) : callNodes (constTree val) = [] := by
  have hnumber : ∀ w, callNodes (numberTree w) = [] := collect_numberTree fun _ => rfl
  unfold constTree
  split
  · exact hnumber _
  · have hcollect : callNodes (.binary false ['/'] (numberTree (intText ‹_›)) (name (itoa ‹_›))) =
        callNodes (numberTree (intText ‹_›)) ++ callNodes (name (itoa ‹_›)) := rfl
    rw [hcollect, hnumber]
    rfl
  · rfl

theorem callNodes_identTree (prog : Program) (aliases : Aliases) (id : Ident) :
    callNodes (identTree prog aliases id) = [] := by
  unfold identTree
  split
  · rfl
  · split
    · rfl
    · split
      · exact callNodes_constTree _
      · rfl

/-- The calls that a printed call contributes: the expansion for the current task, the
call of a helper, or the call as it stands. -/
theorem own_call {args : List Expr} {c : CTree}
    (h : c ∈ own prog aliases (fun c => [c]) (fun _ _ => []) (.call fn args)) :
    (∃ w ∈ currentCallees, c = nullaryCall w) ∨
    (∃ w parts as, callForm prog fn args.length = .helper w parts ∧ c = .call (name w) as) ∨
    (∃ f as, callForm prog fn args.length = .user ∧ exprTree prog aliases fn = .ok f ∧
      c = .call f as) := by
  rw [own] at h
  cases hform : callForm prog fn args.length with
  | cast cType => rw [hform] at h; cases h
  | bare => rw [hform] at h; cases h
  | sugar t =>
      rw [hform] at h
      obtain ⟨ty, e, rfl, he⟩ := callForm_sugar hform
      obtain ⟨w, rfl, hw⟩ := he c h
      exact .inl ⟨w, hw, rfl⟩
  | helper w parts =>
      have hnone : parts.flatMap (ArgPart.own fun _ _ => ([] : List CTree)) = [] := by
        rw [List.flatMap_eq_nil_iff]
        intro part _
        cases part <;> rfl
      rw [hform, CallForm.own, hnone, List.append_nil] at h
      cases ht : formTree prog aliases fn args with
      | error e => rw [ht] at h; cases h
      | ok t =>
          rw [ht] at h
          cases List.mem_singleton.mp h
          rw [formTree, hform] at ht
          obtain ⟨as, -, rfl⟩ := CallForm.helper_of_tree ht
          exact .inr (.inl ⟨w, parts, as, rfl, rfl⟩)
  | user =>
      rw [hform] at h
      cases ht : formTree prog aliases fn args with
      | error e => rw [ht] at h; cases h
      | ok t =>
          rw [ht] at h
          cases List.mem_singleton.mp h
          rw [formTree, hform] at ht
          obtain ⟨f, as, hf, -, rfl⟩ := CallForm.user_of_tree ht
          exact .inr (.inr ⟨f, as, rfl, hf, rfl⟩)

/-- The printed nodes that contribute calls. -/
theorem own_node {nd : PNode} {c : CTree}
    (h : c ∈ nd.own prog (fun c => [c]) (fun _ _ => []) aliases) :
    (∃ buf valC, nd = .reserve buf valC ∧ c = reserveTree buf valC) ∨
    ∃ fn args, nd = .expr (.call fn args) ∧
      c ∈ own prog aliases (fun c => [c]) (fun _ _ => []) (.call fn args) := by
  cases nd with
  | reserve buf valC => exact .inl ⟨buf, valC, rfl, List.mem_singleton.mp h⟩
  | expr e =>
      cases e with
      | call fn args => exact .inr ⟨fn, args, rfl, h⟩
      | ident id =>
          have hnone : c ∈ callNodes (identTree prog aliases id) := h
          rw [callNodes_identTree] at hnone
          cases hnone
      | _ => cases h

/-- What a printed call should be: its own calls have closed callees, and a map method is
lowered. -/
def CallGood (prog : Program) (aliases : Aliases) (fn : Expr) (args : List Expr) : Prop :=
  (∀ c ∈ own prog aliases (fun c => [c]) (fun _ _ => []) (.call fn args), ClosedCall prog c) ∧
  ∀ x sel, fn = .selector x sel → IsMapMethod prog x sel.name →
    ∃ t, formTree prog aliases fn args = .ok t ∧ KernelCall prog aliases x sel.name args t

theorem closed_of_shape {args : List Expr} (hkeys : OkKeys prog aliases)
    (hcallable : Callable prog fn) (hshape : CallShape prog fn args) :
    ∀ c ∈ own prog aliases (fun c => [c]) (fun _ _ => []) (.call fn args), ClosedCall prog c := by
  obtain ⟨-, hbpf, huser⟩ := hshape
  intro c hc
  rcases own_call hc with ⟨w, hw, rfl⟩ | ⟨w, parts, as, hform, rfl⟩ | ⟨f, as, hform, hf, rfl⟩
  · have hsugar : ∀ w ∈ currentCallees, w ∈ tableCallees := by decide
    exact closedCallee_name.mpr (hsugar w hw)
  · refine closedCallee_name.mpr ?_
    rcases callForm_helper hform with ⟨hw, -⟩ | ⟨f, hf, hw | ⟨hsugar, rfl⟩⟩
    · exact List.mem_append_left _ (List.mem_append_left _ hw)
    · exact List.mem_append_left _ (List.mem_append_right _ hw)
    · exact (hbpf f hf).resolve_left hsugar
  · exact (closedCallee_iff hkeys hcallable hf).mpr (huser hform)

/-- A function of the package is no method. -/
theorem callForm_bpf {f : Text} {nargs : Nat} (hfacts : CallFacts prog)
    (hf : bpfFunction prog fn = some f) (hpointer : bpfFunction prog fn ≠ some ("Pointer" : Text)) :
    callForm prog fn nargs = bpfForm nargs f := by
  obtain ⟨x, sel, rfl, hpkg, rfl⟩ := bpfFunction_some hf
  rcases @callForm_cases prog (.selector x sel) nargs with ⟨c, hc, -⟩ | ⟨hcast, -⟩ |
      ⟨form, hm, -⟩ | ⟨f', -, hf', hc⟩ | ⟨-, hf', -⟩
  · cases hc
  · unfold isUnsafePointer at hcast
    split at hcast
    · rename_i heq
      cases heq
      rw [Bool.and_eq_true, beq_iff_eq] at hcast
      rw [hf, hcast.1] at hpointer
      exact absurd rfl hpointer
    · cases hcast
  · obtain ⟨m, -, -, hmethod, -⟩ := methodForm_some hm
    obtain ⟨recv, n, targs, rfl, -, hn⟩ := mapTypeOf_of_methodOf hmethod
    rw [hfacts.package _ hpkg] at hn
    cases hn
  · rw [hf] at hf'
    cases hf'
    exact hc
  · rw [hf] at hf'
    cases hf'

/-- A printed call is as it should be exactly when it has one of the shapes. -/
theorem callGood_iff {args : List Expr} {t : CTree} (hfacts : CallFacts prog)
    (happlied : ∀ x sel, fn = .selector x sel → ∀ n targs, mapTypeOf prog x = some (n, targs) →
      Applied n targs)
    (hkeys : OkKeys prog aliases) (hcallable : Callable prog fn)
    (hpointer : bpfFunction prog fn ≠ some ("Pointer" : Text))
    (ht : formTree prog aliases fn args = .ok t) :
    CallGood prog aliases fn args ↔ CallShape prog fn args := by
  constructor
  · rintro ⟨hclosed, hlowered⟩
    have hown : ∀ {form : CallForm}, callForm prog fn args.length = form →
        (∀ c, c ∈ form.own (fun c => [c]) (fun _ _ => []) (.ok t) → ClosedCall prog c) := by
      intro form hform c hc
      refine hclosed c ?_
      rw [own, hform, ht]
      exact hc
    refine ⟨?_, ?_, ?_⟩
    · rintro x sel rfl hmethod
      obtain ⟨t', ht', hcall⟩ := hlowered x sel rfl hmethod
      exact shape_of_kernelCall hfacts hcallable hmethod ht' hcall
    · intro f hf
      by_cases hsugar : f ∈ sugarFuncs
      · exact .inl hsugar
      · have hform : callForm prog fn args.length = .helper (helperName f) (allArgs args.length) := by
          rw [callForm_bpf hfacts hf hpointer]
          rcases @bpfForm_cases args.length f with ⟨hmem, -⟩ | ⟨w, parts, -, -, hmem, -⟩ | ⟨-, hform⟩
          · exact absurd hmem hsugar
          · exact absurd hmem hsugar
          · exact hform
        have hcall := hown hform t (List.mem_append_left _ (List.mem_singleton_self t))
        rw [formTree, hform] at ht
        obtain ⟨as, -, rfl⟩ := CallForm.helper_of_tree ht
        exact .inr (closedCallee_name.mp hcall)
    · intro hform
      have hcall := hown hform t (List.mem_singleton_self t)
      rw [formTree, hform] at ht
      obtain ⟨f, as, hf, -, rfl⟩ := CallForm.user_of_tree ht
      exact (closedCallee_iff hkeys hcallable hf).mp hcall
  · intro hshape
    refine ⟨closed_of_shape hkeys hcallable hshape, ?_⟩
    rintro x sel rfl hmethod
    exact ⟨t, ht, (kernelCall_of_shape (happlied x sel rfl) hmethod (hshape.1 x sel rfl hmethod) ht).1⟩

end

/-! ## The bodies of functions -/

section

variable {prog : Program} {fd : FuncDecl} {cs : List CStmt}

/-- The calls of a body with the shapes are closed, and its map methods lowered. -/
theorem lowered_of_shape (hfacts : MapFacts prog) (hfd : fd ∈ emittedFuncs prog)
    (haccounts : Accounts prog (fun c => [c]) (fun _ _ => []) (OkKeys prog) (blockTrees cs)
      (funcNodes prog fd))
    (hcovered : ∀ fn args, .expr (.call fn args) ∈ fd.nodes →
      Accounted prog (funcNodes prog fd) (funcLeftOut prog fd) fn args)
    (h : FuncShape prog fd) : CalleesClosed prog cs ∧ MethodsLowered prog fd cs := by
  obtain ⟨occs, hnodes, hoccs, hcollect⟩ := haccounts
  have hocc : ∀ nd ∈ funcNodes prog fd, ∃ aliases, (aliases, nd) ∈ occs := by
    intro nd hnd
    rw [← hnodes] at hnd
    obtain ⟨⟨aliases, nd'⟩, ho, rfl⟩ := List.mem_map.mp hnd
    exact ⟨aliases, ho⟩
  refine ⟨?_, ?_, ?_, ?_⟩
  · intro u hu c hc
    obtain ⟨⟨aliases, nd⟩, ho, hown⟩ := (hcollect c).mp ⟨u, hu, hc⟩
    obtain ⟨hkeys, -⟩ := hoccs _ ho
    have hnd : nd ∈ funcNodes prog fd := hnodes ▸ List.mem_map_of_mem ho
    rcases own_node hown with ⟨buf, valC, rfl, rfl⟩ | ⟨fn, args, rfl, hown⟩
    · exact closedCallee_name.mpr (by decide)
    · exact closed_of_shape hkeys (hfacts.callable fd hfd fn args hnd) (h.nodes _ hnd) c hown
  · intro x sel args hnd hmethod
    have hleft : .expr (.call (.selector x sel) args) ∉ funcLeftOut prog fd :=
      fun hleft => h.leftOut x sel args hleft hmethod
    refine ⟨hleft, (hcovered _ _ hnd).imp_right fun hrest => .inr (hrest.resolve_left hleft)⟩
  · intro x sel args hnd hmethod
    obtain ⟨aliases, ho⟩ := hocc _ hnd
    obtain ⟨t, ht⟩ := (hoccs _ ho).2 _ _ rfl
    obtain ⟨hcall, hown⟩ := kernelCall_of_shape (hfacts.applied fd hfd x sel args hnd) hmethod
      ((h.nodes _ hnd).1 x sel rfl hmethod) ht
    exact ⟨aliases, t, ht, (hcollect t).mpr ⟨_, ho, hown⟩, hcall⟩
  · intro buf valC hnd
    obtain ⟨aliases, ho⟩ := hocc _ hnd
    exact ⟨h.nodes _ hnd, (hcollect _).mpr ⟨_, ho, List.mem_singleton_self _⟩⟩

/-- A body whose calls are closed and whose map methods are lowered has the shapes. -/
theorem shape_of_lowered (hfacts : MapFacts prog) (hfd : fd ∈ emittedFuncs prog)
    (haccounts : Accounts prog (fun c => [c]) (fun _ _ => []) (OkKeys prog) (blockTrees cs)
      (funcNodes prog fd))
    (hclosed : CalleesClosed prog cs) (hlowered : MethodsLowered prog fd cs) :
    FuncShape prog fd := by
  obtain ⟨occs, hnodes, hoccs, hcollect⟩ := haccounts
  refine ⟨fun nd hnd => ?_, fun x sel args hleft hmethod => ?_⟩
  · have hmem := hnd
    rw [← hnodes] at hmem
    obtain ⟨⟨aliases, nd'⟩, ho, rfl⟩ := List.mem_map.mp hmem
    obtain ⟨hkeys, hok⟩ := hoccs _ ho
    cases nd' with
    | reserve buf valC => exact (hlowered.reserves buf valC hnd).1
    | expr e =>
        cases e with
        | call fn args =>
            obtain ⟨t, ht⟩ := hok fn args rfl
            have hcallable := hfacts.callable fd hfd fn args hnd
            have happlied : ∀ x sel, fn = .selector x sel → ∀ n targs,
                mapTypeOf prog x = some (n, targs) → Applied n targs := by
              rintro x sel rfl
              exact hfacts.applied fd hfd x sel args hnd
            refine (callGood_iff hfacts.toCallFacts happlied hkeys hcallable
              (hfacts.noPointer fd hfd fn args hnd) ht).mp ⟨?_, ?_⟩
            · intro c hc
              obtain ⟨u, hu, hcu⟩ := (hcollect c).mpr ⟨_, ho, hc⟩
              exact hclosed u hu c hcu
            · -- the alias table of the lowered call may be another one
              rintro x sel rfl hmethod
              obtain ⟨aliases', t', ht', -, hcall⟩ := hlowered.calls x sel args hnd hmethod
              have hshape := shape_of_kernelCall hfacts.toCallFacts hcallable hmethod ht' hcall
              exact ⟨t, ht, (kernelCall_of_shape (happlied x sel rfl) hmethod hshape ht).1⟩
        | _ => trivial
  · exact (hlowered.emitted x sel args (funcLeftOut_nodes hleft) hmethod).1 hleft

end

/-! ## The whole program -/

theorem forall₂_iff_forall {α β : Type} {R : α → β → Prop} {P : α → Prop} {xs : List α}
    {ys : List β} (h : List.Forall₂ (fun x y => R x y ↔ P x) xs ys) :
    List.Forall₂ R xs ys ↔ ∀ x ∈ xs, P x := by
  induction h with
  | nil => simp
  | cons hxy _ ih => rw [List.forall₂_cons, List.forall_mem_cons, hxy, ih]

/-- **Emitted calls are closed, exactly when the calls have the shapes the emitter knows.**
In the bodies of an emitted program every callee is a name from the tables or a function of
the file, and every call of a map method is emitted as a helper call on the map (or on the
record to finish), exactly when every printed call has one of the shapes of `CallShape`,
every reservation is on a map variable, and no map method is called in a part of a body that
is left out. -/
theorem calls_closed_iff {prog : Program} {label text : Text} {ms : List SourceMapping}
    (hfacts : MapFacts prog) (hemit : emit prog label = .ok (text, ms)) :
    ∃ n acts trees, emitActs prog label ⟨[], 0⟩ = .ok ((), n, acts) ∧
      text = (Emitter.after prog acts).buf ∧ Stand (trees.map blockActs) acts ∧
      functionTrees prog (emittedFuncs prog) ⟨[], 0⟩ = some (trees, n) ∧
      (List.Forall₂ (fun fd cs => CalleesClosed prog cs ∧ MethodsLowered prog fd cs)
          (emittedFuncs prog) trees ↔
        ∀ fd ∈ emittedFuncs prog, FuncShape prog fd) := by
  obtain ⟨n, acts, trees, hacts, htext, htrees, hstand⟩ := emit_functionTrees hemit
  refine ⟨n, acts, trees, hacts, htext, hstand, htrees, ?_⟩
  have haccounts := accounts_functions (g := fun c => [c]) (h := fun _ _ => []) (fun _ => rfl)
    (okKeys_survives prog) (fun fd hfd s hs => ⟨fd, hfd, hs⟩) (by simp [OkKeys]) htrees
  have hbodies : List.Forall₂ (fun fd cs => CalleesClosed prog cs ∧ MethodsLowered prog fd cs ↔
      FuncShape prog fd) (emittedFuncs prog) trees := by
    rw [List.forall₂_iff_zip] at haccounts ⊢
    refine ⟨haccounts.1, fun {fd cs} hmem => ?_⟩
    have hfd := (List.of_mem_zip hmem).1
    have haccount := haccounts.2 hmem
    exact ⟨fun h => shape_of_lowered hfacts hfd haccount h.1 h.2,
      lowered_of_shape hfacts hfd haccount fun fn args => accounted_functions htrees fd hfd⟩
  exact forall₂_iff_forall hbodies

/-! ## A map method in a program -/

/-- `RememberUid`: the program calls a method of the map `seenUids` with the address of a
local variable. -/
def rememberDecl (method : Text) : FuncDecl where
  pos := 100
  name := ⟨"RememberUid", 105⟩
  recv := none
  typeParams := none
  params := some ⟨116, [⟨[⟨"ctx", 117⟩],
    .star 121 (.selector (.ident ⟨"bpf", 122⟩) ⟨"SyscallEnterCtx", 126⟩)⟩]⟩
  results := some ⟨143, [⟨[], .selector (.ident ⟨"bpf", 143⟩) ⟨"TpReturn", 147⟩⟩]⟩
  body := some ⟨156,
    [.decl 158 .var [⟨[⟨"uid", 162⟩], some (.ident ⟨"uint32", 166⟩),
        [.call (.selector (.ident ⟨"bpf", 175⟩) ⟨"GetCurrentUid", 179⟩) []]⟩],
      .expr (.call (.selector (.ident ⟨"seenUids", 196⟩) ⟨method, 205⟩)
        [.unary 209 .and (.ident ⟨"uid", 210⟩)]),
      .ret 216 [.selector (.ident ⟨"bpf", 223⟩) ⟨"TpOk", 227⟩]], 232⟩

/-- The objects and types of the program, for a map of the given type. -/
def rememberInfo (type : Text) (targs : List GoType) : Info where
  uses := fun id =>
    if id.name = "bpf" then some ⟨⟨"bpf", 20⟩, .pkgName bpfPkgPath, .basic .invalid⟩
    else if id.name = "seenUids" then
      some ⟨⟨"seenUids", 60⟩, .var, .named ⟨some bpfPkgPath, type⟩ targs⟩
    else if id.name = "uid" then some ⟨⟨"uid", 162⟩, .var, .basic .uint32⟩
    else none
  defs := [(⟨"uid", 162⟩, some ⟨⟨"uid", 162⟩, .var, .basic .uint32⟩)]
  typeOf := fun e =>
    match e with
    | .ident id =>
        if id.name = "seenUids" then some (.named ⟨some bpfPkgPath, type⟩ targs)
        else if id.name = "bpf" then none else some (.basic .uint32)
    | .star _ _ => some (.pointer (.named ⟨some bpfPkgPath, "SyscallEnterCtx"⟩ []))
    | .selector _ _ => some (.named ⟨some bpfPkgPath, "TpReturn"⟩ [])
    | _ => none
  underlying := fun _ _ => .other

/-- `RememberUid` on a map of the given type. -/
def rememberProgram (type : Text) (key val : Option GoType) (method : Text) : Program where
  position := fun p => ⟨"x.go", p, 1⟩
  imports := [⟨20, "\"github.com/boratanrikulu/gobee/bpf\"", some bpfPkgPath⟩]
  info := rememberInfo type (key.toList ++ val.toList)
  license := "GPL"
  maps := [⟨"seenUids", ⟨"x.go", 60, 1⟩, (bpfMapGoTypeToDirective.lookup type).getD [], key, val,
    4096, some 60⟩]
  programs := [⟨"RememberUid", "tracepoint/syscalls/sys_enter_execve", ⟨"x.go", 100, 1⟩,
    rememberDecl method⟩]
  helpers := []
  types := []
  consts := []

/-- `RememberUid` with `seenUids.Add(&uid)` on a bloom filter. -/
def bloomProgram : Program := rememberProgram "BloomFilter" none (some (.basic .uint32)) "Add"

/-- `RememberUid` with `seenUids.Delete(&uid)` on a hash map. -/
def forgetProgram : Program :=
  rememberProgram "HashMap" (some (.basic .uint32)) (some (.basic .uint8)) "Delete"

/-- The emitted body of `RememberUid` on a bloom filter: `seenUids.Add(&uid)` is a member
call. -/
theorem bloomProgram_memberCall :
    ∃ text ms, validate bloomProgram = [] ∧ emit bloomProgram "x.go" = .ok (text, ms) ∧
      ∃ cs n, functionTrees bloomProgram (emittedFuncs bloomProgram) ⟨[], 0⟩ = some ([cs], n) ∧
        ¬ CalleesClosed bloomProgram cs ∧
        ¬ MethodsLowered bloomProgram (rememberDecl "Add") cs := by
  have hvalid : validate bloomProgram = [] := validate_eq_nil.mpr rfl
  refine ⟨_, _, hvalid, rfl, _, _, rfl, ?_, ?_⟩
  · intro hclosed
    have hcall := hclosed _ (List.mem_cons_of_mem _ List.mem_cons_self) _ (List.mem_singleton_self _)
    rcases hcall with ⟨w, heq, -⟩ | ⟨w, id, heq, -⟩ <;> cases heq
  · intro hlowered
    obtain ⟨aliases, t, ht, -, w, as, rfl, -, -⟩ := hlowered.calls (.ident ⟨"seenUids", 196⟩)
      ⟨"Add", 205⟩ [.unary 209 .and (.ident ⟨"uid", 210⟩)]
      (List.mem_cons_of_mem _ List.mem_cons_self)
      ⟨⟨some bpfPkgPath, "BloomFilter"⟩, [.basic .uint32], ["Add", "Contains"], rfl, rfl,
        List.mem_cons_self⟩
    obtain ⟨f, as', hf, -, heq⟩ := CallForm.user_of_tree ht
    cases heq
    exact selector_callee rfl hf _ _ rfl

theorem forgetProgram_package {x : Expr} (h : isBpfPackage forgetProgram x = true) :
    ∃ id, x = .ident id ∧ id.name = "bpf" := by
  cases x with
  | ident id =>
      refine ⟨id, rfl, ?_⟩
      by_contra hname
      have huses : forgetProgram.info.uses id = _ := if_neg hname
      rw [isBpfPackage, huses] at h
      split_ifs at h
  | _ => cases h

/-- The calls of the program. -/
theorem forgetProgram_calls {fd : FuncDecl} {fn : Expr} {args : List Expr}
    (hfd : fd ∈ emittedFuncs forgetProgram) (h : .expr (.call fn args) ∈ funcNodes forgetProgram fd) :
    (fn = .selector (.ident ⟨"bpf", 175⟩) ⟨"GetCurrentUid", 179⟩ ∧ args = []) ∨
    (fn = .selector (.ident ⟨"seenUids", 196⟩) ⟨"Delete", 205⟩ ∧
      args = [.unary 209 .and (.ident ⟨"uid", 210⟩)]) := by
  cases List.mem_singleton.mp hfd
  rcases List.mem_cons.mp h with h | h
  · cases h
    exact .inl ⟨rfl, rfl⟩
  · rcases List.mem_cons.mp h with h | h
    · cases h
      exact .inr ⟨rfl, rfl⟩
    · rcases List.mem_cons.mp h with h | h
      · cases h
      · rcases List.mem_cons.mp h with h | h
        · cases h
        · cases List.mem_singleton.mp h

theorem forgetProgram_facts : MapFacts forgetProgram where
  package := by
    intro x hx
    obtain ⟨id, rfl, hname⟩ := forgetProgram_package hx
    have htypeOf : forgetProgram.info.typeOf (.ident id) = _ :=
      if_neg (by rw [hname]; decide)
    unfold mapTypeOf
    rw [htypeOf, if_pos hname]
    rfl
  noPointer := by
    intro fd hfd fn args hnd
    rcases forgetProgram_calls hfd hnd with ⟨rfl, -⟩ | ⟨rfl, -⟩
    · decide
    · decide
  applied := by
    intro fd hfd x sel args hnd n targs hn
    rcases forgetProgram_calls hfd hnd with ⟨heq, -⟩ | ⟨heq, -⟩
    · cases heq
      cases hn
    · cases heq
      cases hn
      exact ⟨fun _ => ⟨_, _, rfl⟩, fun h => absurd h (by decide)⟩
  mapType := by
    rintro id ⟨obj, m, -, hm, hname, -⟩
    cases List.mem_singleton.mp hm
    refine ⟨⟨some bpfPkgPath, "HashMap"⟩, [.basic .uint32, .basic .uint8], ?_⟩
    exact if_pos hname.symm
  callable := by
    intro fd hfd fn args hnd
    rcases forgetProgram_calls hfd hnd with ⟨rfl, -⟩ | ⟨rfl, -⟩
    · refine ⟨?_, ?_, ?_, ?_⟩
      · simp [unparen]
      · intro x sel heq
        cases heq
        rfl
      · simp [unparen]
      · simp [unparen]
    · refine ⟨?_, ?_, ?_, ?_⟩
      · simp [unparen]
      · intro x sel heq
        cases heq
        rfl
      · simp [unparen]
      · simp [unparen]

/-- The parts of the program that are left out: the type of `uid`, the callees and the name
of the package. -/
theorem forgetProgram_leftOut {x : Expr} {sel : Ident} {args : List Expr} :
    .expr (.call (.selector x sel) args) ∉ funcLeftOut forgetProgram (rememberDecl "Delete") := by
  have hnodes : funcLeftOut forgetProgram (rememberDecl "Delete") =
      .expr (.ident ⟨"uint32", 166⟩) ::
        (inspectExpr (.selector (.ident ⟨"bpf", 175⟩) ⟨"GetCurrentUid", 179⟩) ++
          (inspectExpr (.selector (.ident ⟨"seenUids", 196⟩) ⟨"Delete", 205⟩) ++
            inspectExpr (.ident ⟨"bpf", 223⟩))) := rfl
  rw [hnodes]
  simp [inspectExpr]

/-- The calls of `RememberUid` on a hash map are closed, and `seenUids.Delete(&uid)` is
`bpf_map_delete_elem(&seenUids, &uid)`. -/
theorem forgetProgram_closed :
    ∃ n trees, functionTrees forgetProgram (emittedFuncs forgetProgram) ⟨[], 0⟩ = some (trees, n) ∧
      List.Forall₂ (fun fd cs => CalleesClosed forgetProgram cs ∧ MethodsLowered forgetProgram fd cs)
        (emittedFuncs forgetProgram) trees := by
  obtain ⟨n, acts, trees, -, -, -, htrees, hiff⟩ :=
    @calls_closed_iff forgetProgram "x.go" _ _ forgetProgram_facts rfl
  refine ⟨n, trees, htrees, hiff.mpr fun fd hfd => ⟨fun nd hnd => ?_, fun x sel args hleft => ?_⟩⟩
  · cases nd with
    | reserve buf valC =>
        cases List.mem_singleton.mp hfd
        cases hnd with
        | tail _ h => cases h with
          | tail _ h => cases h with
            | tail _ h => cases h with
              | tail _ h => cases h with
                | tail _ h => cases h
    | expr e =>
        cases e with
        | call fn args =>
            rcases forgetProgram_calls hfd hnd with ⟨rfl, rfl⟩ | ⟨rfl, rfl⟩
            · refine ⟨?_, ?_, ?_⟩
              · rintro x sel heq ⟨_, _, _, hn, -⟩
                cases heq
                cases hn
              · intro f hf
                cases hf
                exact .inl (by decide)
              · intro hform
                cases hform
            · refine ⟨?_, ?_, ?_⟩
              · rintro x sel heq -
                cases heq
                refine ⟨⟨"seenUids", 196⟩, ⟨some bpfPkgPath, "HashMap"⟩, _, rfl, rfl, by decide,
                  by decide, .inl ?_⟩
                exact ⟨_, _, rfl, List.mem_cons_self, rfl, rfl⟩
              · intro f hf
                cases hf
              · intro hform
                cases hform
        | _ => trivial
  · cases List.mem_singleton.mp hfd
    exact absurd hleft forgetProgram_leftOut

end Gobee
