import DnsRelay.CacheRuns
set_option autoImplicit false

/-!
Loading of the address table: `load_ip_table` of dns_cache.c with
`encode_name` and `rr_make_from_config_pair` of dns_resolver.c.
-/

namespace DnsRelay

/-- `inet_pton` for the two address families. -/
structure InetPton where
  v4 : Bytes → Option { address : Bytes // address.length = 4 }
  v6 : Bytes → Option { address : Bytes // address.length = 16 }

/-- The labels of the rest of a domain, where `label` has been read of the current one. -/
def encodeLabels (label : Bytes) : Bytes → Option Bytes
  | [] => if label.length > 63 then none else some (UInt8.ofNat label.length :: label)
  | c :: rest =>
      if c = 46 then
        if label.length > 63 then none
        else (encodeLabels [] rest).map fun bs => UInt8.ofNat label.length :: label ++ bs
      else encodeLabels (label ++ [c]) rest

def encodeName (domain : Bytes) : Option CString :=
  if domain = [] then none
  else (encodeLabels [] domain).map CString.ofChars

/-- The switch of `rr_make_from_config_pair` over the types that it knows. -/
def rdataFromConfig (pton : InetPton) (type : UInt16) (data : Bytes) : Option Rdata :=
  if type = Qtype.a then (pton.v4 data).map fun address => ⟨4,address.1,address.2⟩
  else if type = Qtype.aaaa then (pton.v6 data).map fun address => ⟨16,address.1,address.2⟩
  else if type = Qtype.cname then (encodeName data).map Rdata.ofName
  else none

def rrMakeFromConfigPair (pton : InetPton) (name : Bytes) (ttl : UInt32) (type : UInt16)
    (data : Bytes) : Option ResourceRecord := do
  let encoded ← encodeName name
  let rdata ← rdataFromConfig pton type data
  some { toRdata := rdata, name := encoded, type, rrClass := qclassIn, ttl }

def isSpace (c : UInt8) : Bool := decide (c = 32 ∨ (9 ≤ c ∧ c ≤ 13))

def trimLeft (s : Bytes) : Bytes := s.dropWhile isSpace

def trimRight (s : Bytes) : Bytes := (s.reverse.dropWhile isSpace).reverse

/-- What one line of the file contributes; a line is the string that `fgets` leaves. -/
def ipTableLine (pton : InetPton) (line : Bytes) : Option ResourceRecord :=
  let p := trimLeft line
  if p = [] ∨ p.head? = some 35 then none
  else if (61 : UInt8) ∉ p then none
  else
    let domain := trimRight (p.takeWhile fun c => decide (c ≠ 61))
    let ipStr := trimRight (trimLeft ((p.dropWhile fun c => decide (c ≠ 61)).drop 1))
    if domain = [] ∨ ipStr = [] then none
    else if (pton.v4 ipStr).isSome then
      rrMakeFromConfigPair pton domain ttlForever Qtype.a ipStr
    else if (pton.v6 ipStr).isSome then
      rrMakeFromConfigPair pton domain ttlForever Qtype.aaaa ipStr
    else none

def ipTable (pton : InetPton) (lines : List Bytes) : List ResourceRecord :=
  lines.filterMap (ipTableLine pton)

/-- "%u|%s" in a buffer of 512 bytes. -/
def groupKey (rr : ResourceRecord) : Bytes :=
  (decimal rr.type.toNat ++ 124 :: rr.name.chars).take 511

/-- The groups met so far, and their keys in order. A group grows in place. -/
structure RrGroups where
  groups : HashMap Bytes (List ResourceRecord)
  keys : List Bytes

def RrGroups.empty : RrGroups := ⟨HashMap.create,[]⟩

def RrGroups.add (g : RrGroups) (rr : ResourceRecord) : RrGroups :=
  let key := groupKey rr
  match HashMap.get cstrHashing g.groups key with
  | none => ⟨(HashMap.put cstrHashing g.groups key [rr]).2,g.keys ++ [key]⟩
  | some group => ⟨(HashMap.put cstrHashing g.groups key (group ++ [rr])).2,g.keys⟩

def atoi (s : Bytes) : Nat :=
  (s.takeWhile fun c => decide (48 ≤ c ∧ c ≤ 57)).foldl (fun n c => 10*n+(c.toNat-48)) 0

def groupPut (g : RrGroups) (key : Bytes) : Option CacheOp :=
  match HashMap.get cstrHashing g.groups key with
  | none => none
  | some group =>
      if (124 : UInt8) ∉ key then none
      else some (.put (.ofChars ((key.dropWhile fun c => decide (c ≠ 124)).drop 1))
        (UInt16.ofNat (atoi key)) qclassIn ⟨UInt16.ofNat group.length,0,0,some group⟩)

/-- The calls of `dns_cache_put` that loading the table makes. -/
def ipTablePuts (pton : InetPton) (lines : List Bytes) : List CacheOp :=
  let g := (ipTable pton lines).foldl RrGroups.add RrGroups.empty
  g.keys.filterMap (groupPut g)

end DnsRelay
