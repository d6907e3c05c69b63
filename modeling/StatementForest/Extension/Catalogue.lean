import StatementForest.Extension.Supplier

/-!
# The known extensions

The extensions that the library knows without being told: those of some IETF
modules, of the O-RAN topology modules and of the 3GPP modules.
-/

namespace StatementForest
namespace Catalogue

/-- The keys of several keywords. -/
def keysOf (keywords : List Keyword) : List Key := keywords.map Key.ofKeyword

/-! ### IETF -/

def schemaMountModule : String := "ietf-yang-schema-mount"

def metadataModule : String := "ietf-yang-metadata"

def accessControlModule : String := "ietf-netconf-acm"

/-- The statements that define data nodes. -/
def dataNodes : List Keyword := [.leaf, .leafList, .list, .container, .anydata, .anyxml]

def mountPoint : ExtensionRule where
  key := ⟨schemaMountModule, "mount-point"⟩
  argument := .identifier
  parents := some (keysOf [.list, .container])
  underAmendments := true

def metadataAnnotation : ExtensionRule where
  key := ⟨metadataModule, "annotation"⟩
  argument := .identifier
  repeatable := true
  parents := some (keysOf [.module, .submodule])
  followUp := .expectType

def defaultDenyWrite : ExtensionRule where
  key := ⟨accessControlModule, "default-deny-write"⟩
  argument := .forbidden
  parents := some (keysOf dataNodes)
  underAmendments := true

def defaultDenyAll : ExtensionRule where
  key := ⟨accessControlModule, "default-deny-all"⟩
  argument := .forbidden
  parents := some (keysOf dataNodes)
  underAmendments := true

/-- The extensions of the IETF modules. -/
def ietf : Supplier :=
  (Supplier.mk "ietf" {}).withRule mountPoint
    |>.withRule metadataAnnotation
    |>.withRule defaultDenyWrite
    |>.withRule defaultDenyAll

/-! ### O-RAN -/

def topologyModule : String := "o-ran-smo-teiv-common-yang-extensions"

/-- The key of the mark of one side of a relationship. -/
def sideKey (side : String) : Key := ⟨topologyModule, side⟩

/-- The two sides of a relationship. -/
def sides : List String := ["aSide", "bSide"]

def relationship : ExtensionRule where
  key := ⟨topologyModule, "biDirectionalTopologyRelationship"⟩
  argument := .identifier
  repeatable := true
  parents := some (keysOf [.module])
  followUp := .expectSides

/-- The mark of one side of a relationship. -/
def sideMark (side : String) : ExtensionRule where
  key := sideKey side
  argument := .identifier
  parents := some (keysOf [.leaf, .leafList])

def topologyDomain : ExtensionRule where
  key := ⟨topologyModule, "domain"⟩

def versionLabel : ExtensionRule where
  key := ⟨topologyModule, "label"⟩
  argument := .mandatory
  parents := some (keysOf [.revision])
  form := some .version
  followUp := .recordVersion

/-- The extensions of the O-RAN topology modules. -/
def oran : Supplier :=
  (Supplier.mk "o-ran-teiv" {}).withRule relationship
    |>.withRule (sideMark "aSide")
    |>.withRule (sideMark "bSide")
    |>.withRule topologyDomain
    |>.withRule versionLabel

/-! ### 3GPP -/

def commonModule : String := "_3gpp-common-yang-extensions"

def initialValue : ExtensionRule where
  key := ⟨commonModule, "initial-value"⟩
  argument := .mandatory
  repeatable := true
  orderMatters := true

def inVariant : ExtensionRule where
  key := ⟨commonModule, "inVariant"⟩
  argument := .forbidden
  parents := some (keysOf [.leaf, .leafList, .list])
  underAmendments := true

def notNotifyable : ExtensionRule where
  key := ⟨commonModule, "notNotifyable"⟩
  argument := .forbidden
  parents := some (keysOf [.leaf, .leafList, .list, .container, .anydata, .anyxml])
  underAmendments := true

/-- The extensions of the 3GPP modules. -/
def threeGpp : Supplier :=
  (Supplier.mk "3gpp" {}).withRule initialValue
    |>.withRule inVariant
    |>.withRule notNotifyable

/-- All suppliers that the library brings along. -/
def suppliers : Suppliers := ⟨[ietf, oran, threeGpp]⟩

end Catalogue
end StatementForest
