import CompactStore.Bytes

/-!
# Command names

The commands of the store, in five families.  A name is recognised by its bytes;
the caller decides whether to upper-case them first.
-/

namespace CompactStore

/-- A group of commands that work on one type of value, or on all. -/
inductive Family where
  | list
  | bloom
  | cuckoo
  | sketch
  | generic
deriving DecidableEq, Repr

/-- The name of a command. -/
inductive CommandName where
  | lpush
  | rpush
  | lpop
  | rpop
  | llen
  | lrange
  | lindex
  | bfReserve
  | bfAdd
  | bfMadd
  | bfExists
  | bfMexists
  | bfInfo
  | bfCard
  | cfReserve
  | cfAdd
  | cfAddnx
  | cfExists
  | cfMexists
  | cfDel
  | cfInfo
  | cmsInitByDim
  | cmsInitByProb
  | cmsIncrBy
  | cmsQuery
  | cmsInfo
  | del
  | exist
  | type
deriving DecidableEq, Repr

namespace CommandName

/-- All command names. -/
def all : List CommandName :=
  [lpush, rpush, lpop, rpop, llen, lrange, lindex,
    bfReserve, bfAdd, bfMadd, bfExists, bfMexists, bfInfo, bfCard,
    cfReserve, cfAdd, cfAddnx, cfExists, cfMexists, cfDel, cfInfo,
    cmsInitByDim, cmsInitByProb, cmsIncrBy, cmsQuery, cmsInfo,
    del, exist, type]

/-- The text of a name. -/
def text : CommandName → String
  | lpush => "LPUSH"
  | rpush => "RPUSH"
  | lpop => "LPOP"
  | rpop => "RPOP"
  | llen => "LLEN"
  | lrange => "LRANGE"
  | lindex => "LINDEX"
  | bfReserve => "BF.RESERVE"
  | bfAdd => "BF.ADD"
  | bfMadd => "BF.MADD"
  | bfExists => "BF.EXISTS"
  | bfMexists => "BF.MEXISTS"
  | bfInfo => "BF.INFO"
  | bfCard => "BF.CARD"
  | cfReserve => "CF.RESERVE"
  | cfAdd => "CF.ADD"
  | cfAddnx => "CF.ADDNX"
  | cfExists => "CF.EXISTS"
  | cfMexists => "CF.MEXISTS"
  | cfDel => "CF.DEL"
  | cfInfo => "CF.INFO"
  | cmsInitByDim => "CMS.INITBYDIM"
  | cmsInitByProb => "CMS.INITBYPROB"
  | cmsIncrBy => "CMS.INCRBY"
  | cmsQuery => "CMS.QUERY"
  | cmsInfo => "CMS.INFO"
  | del => "DEL"
  | exist => "EXISTS"
  | type => "TYPE"

/-- The bytes of a name. -/
def bytes (name : CommandName) : Bytes :=
  Bytes.ofAscii name.text.toList

/-- The family of a command. -/
def family : CommandName → Family
  | lpush | rpush | lpop | rpop | llen | lrange | lindex => .list
  | bfReserve | bfAdd | bfMadd | bfExists | bfMexists | bfInfo | bfCard => .bloom
  | cfReserve | cfAdd | cfAddnx | cfExists | cfMexists | cfDel | cfInfo => .cuckoo
  | cmsInitByDim | cmsInitByProb | cmsIncrBy | cmsQuery | cmsInfo => .sketch
  | del | exist | type => .generic

/-- The command with exactly this name. -/
def ofBytes? (name : Bytes) : Option CommandName :=
  all.find? fun c => c.bytes == name

/-- **No two commands share a name.**  A command is found under its own name. -/
theorem ofBytes?_bytes (c : CommandName) : ofBytes? c.bytes = some c := by
  cases c <;> decide

end CommandName

namespace Family

/-- What the names of a family begin with, for the families whose commands are
marked in this way. -/
def marker? : Family → Option Bytes
  | list => none
  | bloom => some (Bytes.ofAscii "BF.".toList)
  | cuckoo => some (Bytes.ofAscii "CF.".toList)
  | sketch => some (Bytes.ofAscii "CMS.".toList)
  | generic => none

/-- Whether a name begins with the marker of a family. -/
def isMarked (name : Bytes) : Bool :=
  [bloom, cuckoo, sketch].any fun family =>
    family.marker?.any fun marker => marker.isPrefixOf name

end Family

end CompactStore
