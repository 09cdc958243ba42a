import QmlIndex.Registry

/-! # Builtin modules

The modules that come with the platform have no manifest in the workspace. They are looked up like any
other module but are never stored.
-/

namespace QmlIndex.Builtins

/-- Name and version of each module, with name, version and singleton flag of its components. -/
def catalog : List (String × String × List (String × String × Bool)) := [
  ("QtQml", "2.15", [
    ("QtObject", "2.0", false), ("Component", "2.0", false), ("Binding", "2.0", false),
    ("Connections", "2.0", false), ("Timer", "2.0", false), ("Instantiator", "2.1", false),
    ("Qt", "2.0", true)]),
  ("QtQuick", "2.15", [
    ("Item", "2.0", false), ("Rectangle", "2.0", false), ("Text", "2.0", false),
    ("TextInput", "2.0", false), ("TextEdit", "2.0", false), ("Image", "2.0", false),
    ("MouseArea", "2.0", false), ("Flickable", "2.0", false), ("ListView", "2.0", false),
    ("GridView", "2.0", false), ("Repeater", "2.0", false), ("Loader", "2.0", false),
    ("Column", "2.0", false), ("Row", "2.0", false), ("Grid", "2.0", false),
    ("Flow", "2.0", false), ("FocusScope", "2.0", false), ("Canvas", "2.0", false),
    ("PropertyAnimation", "2.0", false), ("NumberAnimation", "2.0", false),
    ("ColorAnimation", "2.0", false), ("SequentialAnimation", "2.0", false),
    ("ParallelAnimation", "2.0", false), ("State", "2.0", false), ("Transition", "2.0", false),
    ("Behavior", "2.0", false), ("TapHandler", "2.12", false), ("DragHandler", "2.12", false),
    ("HoverHandler", "2.12", false)]),
  ("QtQuick.Window", "2.15", [
    ("Window", "2.0", false), ("Screen", "2.0", true)]),
  ("QtQuick.Layouts", "1.15", [
    ("RowLayout", "1.0", false), ("ColumnLayout", "1.0", false), ("GridLayout", "1.0", false),
    ("StackLayout", "1.3", false)]),
  ("QtQuick.Controls", "2.15", [
    ("ApplicationWindow", "2.0", false), ("Button", "2.0", false), ("CheckBox", "2.0", false),
    ("ComboBox", "2.0", false), ("Dialog", "2.1", false), ("Drawer", "2.0", false),
    ("Label", "2.0", false), ("Menu", "2.0", false), ("MenuItem", "2.0", false),
    ("Page", "2.0", false), ("Pane", "2.0", false), ("Popup", "2.0", false),
    ("ProgressBar", "2.0", false), ("RadioButton", "2.0", false), ("ScrollView", "2.2", false),
    ("Slider", "2.0", false), ("SpinBox", "2.0", false), ("StackView", "2.0", false),
    ("Switch", "2.0", false), ("TabBar", "2.0", false), ("TabButton", "2.0", false),
    ("TextArea", "2.0", false), ("TextField", "2.0", false), ("ToolBar", "2.0", false),
    ("ToolButton", "2.0", false), ("ToolTip", "2.0", false)]),
  ("QtQuick.Dialogs", "6.2", [
    ("FileDialog", "6.2", false), ("FolderDialog", "6.3", false), ("ColorDialog", "6.4", false),
    ("MessageDialog", "6.3", false)])]

def component (name version : String) (isSingleton : Bool) : Component :=
  { name, isSingleton, version := some version, file := none, isBuiltin := true }

/-- The builtin modules. -/
def registry : Registry :=
  catalog.foldl (fun r (name, version, components) =>
    r.insert
      { name, version, manifest := none, lastModified := none
        components := OrdMap.ofList (components.map fun (n, v, s) => (n, component n v s)) }) .empty

end QmlIndex.Builtins
