import TypeStubs.Object

/-! The objects of the typing module. -/

namespace TypeStubs.Typing

def moduleName : String := "typing"

def collections : List String :=
  ["AbstractSet", "AsyncContextManager", "AsyncGenerator", "AsyncIterable", "AsyncIterator",
   "Awaitable", "ByteString", "ChainMap", "Collection", "Container", "ContextManager",
   "Coroutine", "Counter", "DefaultDict", "Deque", "Dict", "FrozenSet", "Generator", "Hashable",
   "ItemsView", "Iterable", "Iterator", "KeysView", "List", "Mapping", "MappingView", "Match",
   "MutableMapping", "MutableSequence", "MutableSet", "OrderedDict", "Pattern", "Reversible",
   "Sequence", "Set", "Sized", "Type", "ValuesView"]

def forms : List String :=
  ["ClassVar", "Concatenate", "Final", "LiteralString", "Never", "NoReturn", "NotRequired",
   "Optional", "Required", "Self", "TypeAlias", "TypeGuard", "Union", "Unpack"]

def typeVariables : List String :=
  ["AnyStr", "CT_co", "KT", "T", "T_co", "T_contra", "VT", "VT_co", "V_co"]

def classes : List (String × TypeName) :=
  let plain := ["Annotated", "BinaryIO", "ForwardRef", "Generic", "IO", "NamedTupleMeta", "NewType",
    "ParamSpec", "ParamSpecArgs", "ParamSpecKwargs", "TextIO", "TypeVar", "TypeVarTuple",
    "_AnnotatedAlias", "_AnyMeta", "_BaseGenericAlias", "_BoundVarianceMixin",
    "_CallableGenericAlias", "_CallableType", "_ConcatenateGenericAlias", "_DeprecatedType",
    "_Final", "_GenericAlias", "_Immutable", "_LiteralGenericAlias", "_LiteralSpecialForm",
    "_NotIterable", "_PickleUsingNameMixin", "_ProtocolMeta", "_SpecialForm",
    "_SpecialGenericAlias", "_TupleType", "_TypedDictMeta", "_TypingEllipsis",
    "_UnionGenericAlias", "_UnpackGenericAlias"]
  let protocols := ["Protocol", "SupportsAbs", "SupportsBytes", "SupportsComplex", "SupportsFloat",
    "SupportsIndex", "SupportsInt", "SupportsRound"]
  plain.map (·, .builtin "type") ++ protocols.map (·, ⟨some moduleName, "_ProtocolMeta"⟩)

def functions : List String :=
  ["NamedTuple", "TypedDict", "_allow_reckless_class_checks", "_caller", "_check_generic",
   "_collect_parameters", "_deduplicate", "_eval_type", "_flatten_literal_params",
   "_get_protocol_attrs", "_idfunc", "_is_callable_members_only", "_is_dunder", "_is_param_expr",
   "_is_typevar_like", "_is_unpacked_typevartuple", "_make_nmtuple", "_namedtuple_mro_entries",
   "_no_init_or_replace_init", "_overload_dummy", "_remove_dups_flatten",
   "_should_unflatten_callable_args", "_strip_annotations", "_tp_cache", "_type_check",
   "_type_convert", "_type_repr", "_unpack_args", "_value_and_type_iter", "abstractmethod",
   "assert_never", "assert_type", "cast", "clear_overloads", "dataclass_transform", "final",
   "get_args", "get_origin", "get_overloads", "get_type_hints", "is_typeddict", "no_type_check",
   "no_type_check_decorator", "overload", "reveal_type", "runtime_checkable"]

def others : List String :=
  ["ABCMeta", "EXCLUDED_ATTRIBUTES", "GenericAlias", "MethodDescriptorType", "MethodWrapperType",
   "WrapperDescriptorType", "_ASSERT_NEVER_REPR_MAX_LENGTH", "_NamedTuple",
   "_PROTO_ALLOWLIST", "_SPECIAL_NAMES", "_TYPING_INTERNALS", "_TypedDict", "__all__",
   "__builtins__", "__cached__", "__file__", "_alias", "_allowed_types", "_cleanups",
   "_overload_registry", "_prohibited", "_special", "collections", "contextlib", "defaultdict",
   "functools", "io", "operator", "re", "stdlib_re", "sys", "types", "warnings"]

def classOf (name : String) (metatype : TypeName) (members : List (String × Object)) : Object :=
  .classDef ⟨some name, some name, some moduleName, none⟩ metatype [] members

def anyClass : Object := classOf "Any" ⟨some moduleName, "_AnyMeta"⟩ []

def typeOf (name : String) : TypeName :=
  let type :=
    if name ∈ forms then "_SpecialForm"
    else if name ∈ typeVariables then "TypeVar"
    else if name = "Callable" then "_CallableType"
    else if name = "Tuple" then "_TupleType"
    else if name = "Literal" then "_LiteralSpecialForm"
    else "_SpecialGenericAlias"
  ⟨some moduleName, type⟩

def textOf (name : String) : String :=
  if name ∈ typeVariables then "~" ++ name else moduleName ++ "." ++ name

def asModule : Object :=
  .moduleDef moduleName none <|
    (collections ++ forms ++ typeVariables ++ ["Callable", "Literal", "Tuple"]).map
      (fun n => (n, .special n)) ++
    [("Any", anyClass), ("TYPE_CHECKING", .bool false),
      ("Text", .ref ⟨["builtins", "str"]⟩)] ++
    classes.map (fun c => (c.1, classOf c.1 c.2 [])) ++
    functions.map (fun n =>
      (n, .routine .function ⟨some n, some n, some moduleName, none⟩ none)) ++
    others.map (fun n => (n, .value (.builtin "object") .object n))

def binds (name : String) : Object → Bool
  | .special n => n = name
  | .bool b => !b && name = "TYPE_CHECKING"
  | .classDef identity metatype _ _ =>
    metatype.module? = some moduleName && identity.name? = some name
  | _ => false

end TypeStubs.Typing
