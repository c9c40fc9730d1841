import AnglOS.Paging

/-!
# Address Spaces

The record of an address space that `mm/addressspace/addressspace.c` keeps beside its page
tables: one entry for each range of memory with its type, flags and extent. Adding an entry
maps the pages that hold the range, changing its flags rewrites their leaf entries.

The array of entries lives on the kernel heap; it is modelled as a list.
-/

namespace AnglOS

/-- The type of an entry. No function reads it, and `elfLoad` passes one that it never sets. -/
abbrev AddrspaceType := BitVec 32

/-- `ADDRSPACE_TYPE_CODE`. -/
abbrev AddrspaceType.code : AddrspaceType := 0
/-- `ADDRSPACE_TYPE_DATA`. -/
abbrev AddrspaceType.data : AddrspaceType := 1
/-- `ADDRSPACE_TYPE_STACK`. -/
abbrev AddrspaceType.stack : AddrspaceType := 5

/-- `ADDRSPACE_FLAG_EXECUTABLE`. -/
abbrev addrspaceFlagExecutable : BitVec 32 := 1
/-- `ADDRSPACE_FLAG_WRITEABLE`. -/
abbrev addrspaceFlagWriteable : BitVec 32 := 2
/-- `ADDRSPACE_FLAG_READABLE`. -/
abbrev addrspaceFlagReadable : BitVec 32 := 4
/-- `ADDRSPACE_FLAG_UNCACHEABLE`. -/
abbrev addrspaceFlagUncacheable : BitVec 32 := 8
/-- `ADDRSPACE_FLAG_USER`. -/
abbrev addrspaceFlagUser : BitVec 32 := 16

/-- `address_space_entry_t`. -/
structure AddressSpaceEntry where
  type : AddrspaceType
  flags : BitVec 32
  size : ℕ
  addrStart : ℕ

/-- `address_space_t`, with `cr3` as a physical address. -/
structure AddressSpace where
  cr3 : ℕ
  entries : List AddressSpaceEntry

/-- `convAddrSpaceFlagsToPaging`. -/
def convAddrSpaceFlagsToPaging (flags : BitVec 32) : BitVec 64 :=
  let f := pageFlagPresent
  let f := if flags &&& addrspaceFlagExecutable = 0 then f ||| pageFlagExecdble else f
  let f := if flags &&& addrspaceFlagWriteable ≠ 0 then f ||| pageFlagReadwrite else f
  let f := if flags &&& addrspaceFlagUncacheable ≠ 0 then f ||| pageFlagCachedble else f
  if flags &&& addrspaceFlagUser ≠ 0 then f ||| pageFlagUsersuper else f

/-- `addressSpaceAddEntry`. -/
def addressSpaceAddEntry (space : AddressSpace) (type : AddrspaceType) (flags : BitVec 32)
    (size start : ℕ) (s : Paging) : AddressSpace × Paging :=
  ({ space with entries := space.entries ++ [⟨type, flags, size, start⟩] },
    (vmallocCR3 s (alignToPage start) (getNumPages size) (convAddrSpaceFlagsToPaging flags)
      space.cr3).2)

/-- `addressSpaceChangeFlags`, with the old flags; the source reads past the array if there is
no such entry. -/
def addressSpaceChangeFlags (space : AddressSpace) (entry : ℕ) (flags : BitVec 32)
    (s : Paging) : Option (BitVec 32 × AddressSpace × Paging) :=
  (space.entries[entry]?).map fun e =>
    (e.flags, { space with entries := space.entries.set entry { e with flags := flags } },
      vflagsCR3 s (alignToPage e.addrStart) (getNumPages e.size)
        (convAddrSpaceFlagsToPaging flags) space.cr3)

/-- The virtual pages that an entry of the given size and start occupies: those its loop over
pages runs through. -/
def entryPages (size start : ℕ) : Set ℕ :=
  {v | ∃ i < getNumPages size, v = add64 (alignToPage start) (i * pageSize)}

end AnglOS
