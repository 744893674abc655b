/-!
# The schema of a catalog

A catalog lists items with colors, permissions, measures and notes.
-/
namespace XmlBinding.Samples

/-- The text of the schema. -/
def catalogSchema : String := r#"<?xml version="1.0" encoding="utf-8"?>
<xs:schema xmlns:xs="http://www.w3.org/2001/XMLSchema"
           xmlns:s="urn:xsdgen:sample"
           targetNamespace="urn:xsdgen:sample"
           elementFormDefault="qualified">

  <xs:simpleType name="Color">
    <xs:annotation>
      <xs:documentation>Paint color of an item.</xs:documentation>
    </xs:annotation>
    <xs:restriction base="xs:string">
      <xs:enumeration value="red"/>
      <xs:enumeration value="green"/>
      <xs:enumeration value="dark-blue"/>
    </xs:restriction>
  </xs:simpleType>

  <xs:simpleType name="Permission">
    <xs:restriction base="xs:string">
      <xs:enumeration value="read"/>
      <xs:enumeration value="write"/>
      <xs:enumeration value="execute"/>
    </xs:restriction>
  </xs:simpleType>

  <xs:simpleType name="PermissionList">
    <xs:list itemType="s:Permission"/>
  </xs:simpleType>

  <xs:simpleType name="Identifier">
    <xs:restriction base="xs:string">
      <xs:pattern value="[a-z][a-z0-9]*"/>
    </xs:restriction>
  </xs:simpleType>

  <xs:simpleType name="Size">
    <xs:union memberTypes="xs:int xs:string"/>
  </xs:simpleType>

  <xs:attributeGroup name="Tracking">
    <xs:attribute name="Created" type="xs:dateTime"/>
    <xs:attribute name="Author" type="xs:string"/>
  </xs:attributeGroup>

  <xs:complexType name="ItemBase" abstract="true">
    <xs:annotation>
      <xs:documentation>Anything a catalog lists.</xs:documentation>
    </xs:annotation>
    <xs:attribute name="Id" type="s:Identifier" use="required"/>
  </xs:complexType>

  <xs:complexType name="Measure">
    <xs:simpleContent>
      <xs:extension base="xs:decimal">
        <xs:attribute name="Unit">
          <xs:simpleType>
            <xs:restriction base="xs:string">
              <xs:enumeration value="cm"/>
              <xs:enumeration value="in"/>
            </xs:restriction>
          </xs:simpleType>
        </xs:attribute>
      </xs:extension>
    </xs:simpleContent>
  </xs:complexType>

  <xs:complexType name="Palette">
    <xs:choice>
      <xs:element ref="s:Foo"/>
      <xs:element ref="s:Bar"/>
    </xs:choice>
  </xs:complexType>

  <xs:element name="Title" type="xs:string"/>

  <xs:element name="Placeholder" type="xs:string" abstract="true"/>

  <xs:element name="Swatches" type="s:Palette"/>

  <xs:element name="Foo">
    <xs:complexType>
      <xs:complexContent>
        <xs:extension base="s:ItemBase">
          <xs:attribute name="Color" type="s:Color"/>
          <xs:attribute name="Direction">
            <xs:simpleType>
              <xs:restriction base="xs:string">
                <xs:enumeration value="North"/>
                <xs:enumeration value="East"/>
                <xs:enumeration value="South"/>
                <xs:enumeration value="West"/>
              </xs:restriction>
            </xs:simpleType>
          </xs:attribute>
          <xs:attributeGroup ref="s:Tracking"/>
        </xs:extension>
      </xs:complexContent>
    </xs:complexType>
  </xs:element>

  <xs:element name="Bar">
    <xs:complexType>
      <xs:complexContent>
        <xs:extension base="s:ItemBase">
          <xs:sequence>
            <xs:element name="Label" minOccurs="0">
              <xs:complexType>
                <xs:simpleContent>
                  <xs:extension base="xs:string">
                    <xs:attribute name="Lang" type="xs:language"/>
                  </xs:extension>
                </xs:simpleContent>
              </xs:complexType>
            </xs:element>
            <xs:element name="Length" type="s:Measure" minOccurs="0"/>
          </xs:sequence>
          <xs:attribute name="Permissions" type="s:PermissionList"/>
          <xs:attribute name="Weight" type="xs:double"/>
          <xs:attribute name="Size" type="s:Size"/>
          <xs:attribute name="Visible" type="xs:boolean"/>
        </xs:extension>
      </xs:complexContent>
    </xs:complexType>
  </xs:element>

  <xs:element name="Catalog">
    <xs:annotation>
      <xs:documentation>Root of a catalog document.</xs:documentation>
    </xs:annotation>
    <xs:complexType>
      <xs:sequence>
        <xs:element ref="s:Title" minOccurs="0"/>
        <xs:choice minOccurs="0" maxOccurs="unbounded">
          <xs:element ref="s:Foo"/>
          <xs:element ref="s:Bar"/>
        </xs:choice>
        <xs:element name="Note" type="xs:string" minOccurs="0" maxOccurs="unbounded"/>
        <xs:any minOccurs="0" maxOccurs="unbounded" processContents="lax"/>
      </xs:sequence>
      <xs:attribute name="Version" type="xs:int" use="required"/>
      <xs:attribute name="Owner" type="xs:string"/>
    </xs:complexType>
  </xs:element>

</xs:schema>
"#

end XmlBinding.Samples
